import ArborDb.Index.Maintenance
import ArborDb.Lib.Thin

/-!
# Indexes that agree with the data

An index agrees with the data if every file its pattern matches has its entry, and every entry of
its block is the one of an entity the pattern matches now.
-/

namespace ArborDb

variable [Externals]

/-- The entity an index entry names. -/
def entryEntity (x : IndexEntry) (key value : Bytes) : AdbResult AKey :=
  if x.definition.unique then AKey.tryFromBytes value
  else AKey.tryFromBytes (key.drop (key.length - 16))

/-- The a-node is one the pattern of an index matches. -/
def Matched (data : SortedMap AKey Entry) (x : IndexEntry) (k : AKey) : Prop :=
  data.get k ≠ none ∧ ∃ p, Pattern.parse x.definition.pattern = .ok p ∧ k ∈ p.affectedEntities data .root

/-- The file is one the pattern of an index matches. -/
def MatchedFile (data : SortedMap AKey Entry) (x : IndexEntry) (k : AKey) : Prop :=
  Matched data x k ∧ ∃ blob, data.get k = some (.file blob)

structure Agrees (data : SortedMap AKey Entry) (index : SortedMap Bytes Bytes) (x : IndexEntry) : Prop where
  has : ∀ {k : AKey} {kv : Bytes × Bytes}, MatchedFile data x k →
    indexKey data x.id x.definition k = .ok kv → index.get kv.1 = some kv.2
  only : ∀ {key value : Bytes}, index.get key = some value → idPrefix x.id <+: key →
    ∃ k, Matched data x k ∧ indexKey data x.id x.definition k = .ok (key, value)

/-- An entry names the entity it was computed for. -/
theorem entryEntity_indexKey {data : SortedMap AKey Entry} {x : IndexEntry} {k : AKey} {key value : Bytes}
    (h : indexKey data x.id x.definition k = .ok (key, value)) : entryEntity x key value = .ok k := by
  unfold indexKey at h
  obtain ⟨values, _, h⟩ := Except.bind_eq_ok.1 h
  unfold entryEntity
  split at h
  · rename_i hunique
    cases h
    rw [if_pos hunique, AKey.tryFromBytes_intoBytes]
  · rename_i hunique
    cases h
    rw [if_neg hunique]
    have htail : (entryKey x.id (x.definition.encodeColumns values) (some k)).drop
        ((entryKey x.id (x.definition.encodeColumns values) (some k)).length - 16) = k.intoBytes := by
      change List.drop _ (_ ++ k.intoBytes) = _
      rw [List.drop_append_of_le_length (by simp [entryKey]; omega),
        List.drop_eq_nil_of_le (by simp [entryKey]; omega)]
      rfl
    rw [htail, AKey.tryFromBytes_intoBytes]

/-- An entry of an index lies in its block. -/
theorem idPrefix_indexKey {data : SortedMap AKey Entry} {x : IndexEntry} {k : AKey} {kv : Bytes × Bytes}
    (h : indexKey data x.id x.definition k = .ok kv) : idPrefix x.id <+: kv.1 := by
  unfold indexKey at h
  obtain ⟨values, _, h⟩ := Except.bind_eq_ok.1 h
  split at h <;>
  · cases h
    exact ⟨_, (List.append_assoc _ _ _).symm⟩

/-! ## Thinned tables -/

section Thinned

open Layout (Thins)

variable {data data' : SortedMap AKey Entry}

omit [Externals] in
theorem Pattern.mem_walk_of_thins (h : Thins data.get data'.get) {segs : List PatternSeg} {cur k : AKey}
    (hk : k ∈ Pattern.walk data' segs cur []) : k ∈ Pattern.walk data segs cur [] := by
  obtain ⟨names, hmatch, hwalk, hline⟩ := mem_walk_iff.1 hk
  exact mem_walk_iff.2 ⟨names, hmatch, h.walk hwalk, hline⟩

omit [Externals] in
/-- The way to an a-node that stays is kept. -/
theorem Pattern.mem_walk_thinned (h : Thins data.get data'.get) {segs : List PatternSeg} {cur k : AKey}
    (hk : k ∈ Pattern.walk data segs cur []) (hstays : data'.get k ≠ none) :
    k ∈ Pattern.walk data' segs cur [] := by
  obtain ⟨names, hmatch, hwalk, hline⟩ := mem_walk_iff.1 hk
  exact mem_walk_iff.2 ⟨names, hmatch, h.walk_of_stays hwalk hstays, hline⟩

/-- What stays keeps its entry. -/
theorem indexKey_thinned (h : Thins data.get data'.get) {k : AKey} (hstays : data'.get k ≠ none)
    (id : IndexId) (d : IndexDef) : indexKey data' id d k = indexKey data id d k := by
  have hcolumn : ∀ path, columnScalar data' k path = columnScalar data k path := by
    intro path
    unfold columnScalar
    cases hentry : data'.get k with
    | none => exact absurd hentry hstays
    | some entry =>
      cases entry with
      | leaf blob => rw [h.leaf hentry]
      | branch kept =>
        obtain ⟨links, hlinks, -⟩ := h.branch hentry
        rw [hlinks]
  unfold indexKey columnValues
  simp only [hcolumn]

omit [Externals] in
/-- What stays is matched as before. -/
theorem matched_thinned (h : Thins data.get data'.get) {x : IndexEntry} {k : AKey} (hstays : data'.get k ≠ none) :
    Matched data' x k ↔ Matched data x k := by
  constructor
  · rintro ⟨-, p, hp, hk⟩
    exact ⟨fun hnone => hstays (h.absent hnone), p, hp, Pattern.mem_walk_of_thins h hk⟩
  · rintro ⟨-, p, hp, hk⟩
    exact ⟨hstays, p, hp, Pattern.mem_walk_thinned h hk hstays⟩

end Thinned

end ArborDb
