import ArborDb.Index.Fits
import ArborDb.Index.Rows
import ArborDb.Txn.Source

/-!
# Index queries

A query names an index and the values of its leading columns. It scans the keys of the index that start
with these, keeps what lies under its root, and loads the files it finds one after the other. Directories,
and what the principal may not access, are passed over in silence. Over an exact index a query therefore
returns the files that match, once each, in the order of their columns (`GrabSource.Serves.executeQuery_hits`).
-/

namespace ArborDb

open Layout (Node)
open Ordered (Fits LawfulFloats LawfulMagnitudes)

/-! ## What a query asks for -/

section Hits

variable [Externals]

/-- A file of a tree. -/
structure Found where
  path : List Str
  key : AKey
  value : Value

def Found.node (f : Found) : Node AKey Value := ⟨f.key, some f.value⟩

/-- The order of an index: by the columns, then by the key. -/
def IndexEntry.Precedes (x : IndexEntry) (a b : Node AKey Value) : Prop :=
  x.definition.encodeColumns (x.definition.tupleOf a) < x.definition.encodeColumns (x.definition.tupleOf b) ∨
    x.definition.tupleOf a = x.definition.tupleOf b ∧ a.key < b.key

namespace IndexQuery

variable (q : IndexQuery) (x : IndexEntry)

/-- The order the hits come in. -/
def Before (f g : Found) : Prop := if q.reverse then x.Precedes g.node f.node else x.Precedes f.node g.node

/-- The file is one that the query asks for. -/
structure Asks (permits : AKey → Prop) (T : FsTree) (f : Found) : Prop where
  stored : T f.path = some f.node
  covered : x.Covers f.path
  under : q.root.names <+: f.path
  permitted : permits f.key
  leading : q.leading <+: x.definition.tupleOf f.node

/-- **The result of a query**: the files it asks for, loaded once each and in order. -/
def Yields (permits : AKey → Prop) (T : FsTree) {α : Type} (load : Bytes → AdbResult α)
    (result : AdbResult (List α)) : Prop :=
  ∃ hits : List Found, result = hits.mapM (fun f => load (Codec.encode f.value)) ∧ hits.Pairwise (q.Before x) ∧
    ∀ f, f ∈ hits ↔ q.Asks x permits T f

end IndexQuery

/-- The transaction reads an index and the entries of a table, and what it permits verifies. -/
structure GrabSource.Serves (src : GrabSource) (x : IndexEntry) (index : SortedMap Bytes Bytes)
    (data : SortedMap AKey Entry) : Prop where
  scan : ∀ cols, src.scanIndex x cols = scanPrefix index x.id cols x.definition.unique
  under : ∀ {pattern : Pattern} {root : APath} {k : AKey}, root.names ≠ [] → root.names.length ≤ pattern.depth →
    (k ∈ src.affectedUnder pattern root ↔ k ∈ pattern.affectedEntities data root)
  entry : ∀ k, src.entryBlob k = data.get k
  denied : ∀ {k err}, src.authorize k = .error err → ∃ msg, err = .permissionDenied msg
  verified : ∀ {k entry}, src.authorize k = .ok () → data.get k = some entry → src.verify k entry = .ok ()

/-! ## The scan -/

variable {x : IndexEntry} {index : SortedMap Bytes Bytes} {data : SortedMap AKey Entry} {T : FsTree}

/-- A node at a path that the pattern of an index matches. -/
def IndexEntry.Candidate (x : IndexEntry) (T : FsTree) (leading : List Scalar)
    (pa : List Str × Node AKey Value) : Prop :=
  x.Covers pa.1 ∧ T.rooted pa.1 = some pa.2 ∧ leading <+: x.definition.tupleOf pa.2

omit [Externals] in
theorem IndexDef.length_directions (d : IndexDef) : d.directions.length = d.columns.length := List.length_map _

theorem IndexDef.length_tupleOf (d : IndexDef) (a : Node AKey Value) : (d.tupleOf a).length = d.columns.length :=
  List.length_map _

/-- Of two nodes at most one comes first. -/
theorem IndexEntry.Precedes.asymm {a b : Node AKey Value} (h : x.Precedes a b) : ¬ x.Precedes b a := by
  rintro (hlt | ⟨hsame, hlt⟩)
  · rcases h with hlt' | ⟨hsame, -⟩
    · exact lt_asymm hlt hlt'
    · rw [hsame] at hlt
      exact lt_irrefl _ hlt
  · rcases h with hlt' | ⟨-, hlt'⟩
    · rw [hsame] at hlt'
      exact lt_irrefl _ hlt'
    · exact lt_asymm hlt hlt'

namespace IndexQuery

variable {q : IndexQuery}

theorem Before.asymm {f g : Found} (h : q.Before x f g) : ¬ q.Before x g f := by
  unfold Before at h ⊢
  split at h
  · rename_i hreverse
    rw [if_pos hreverse]
    exact h.asymm
  · rename_i hreverse
    rw [if_neg hreverse]
    exact h.asymm

theorem nodup_of_sorted {hits : List Found} (h : hits.Pairwise (q.Before x)) : hits.Nodup := by
  refine List.Pairwise.imp (fun {f g} hfg => ?_) h
  rintro rfl
  exact hfg.asymm hfg

/-- **What a query asks for determines its result.** -/
theorem Yields.unique {permits permits' : AKey → Prop} {T' : FsTree} {α : Type} {load : Bytes → AdbResult α}
    {r r' : AdbResult (List α)} (h : q.Yields x permits T load r) (h' : q.Yields x permits' T' load r')
    (hasks : ∀ f, q.Asks x permits T f ↔ q.Asks x permits' T' f) : r = r' := by
  obtain ⟨hits, rfl, hsorted, hmem⟩ := h
  obtain ⟨hits', rfl, hsorted', hmem'⟩ := h'
  have hperm : hits.Perm hits' := by
    refine (List.perm_ext_iff_of_nodup (nodup_of_sorted hsorted) (nodup_of_sorted hsorted')).2 fun f => ?_
    rw [hmem, hmem', hasks]
  rw [hperm.eq_of_pairwise (fun f g _ _ hfg hgf => absurd hgf hfg.asymm) hsorted hsorted']

end IndexQuery

/-- The key of a row: the block of the index, the columns, and the key of the node if there may be twins. -/
theorem IndexEntry.rowOf_key (x : IndexEntry) (a : Node AKey Value) : (x.rowOf a).1 = idPrefix x.id ++
    (x.definition.encodeColumns (x.definition.tupleOf a) ++ if x.definition.unique then [] else a.key.intoBytes) := by
  unfold IndexEntry.rowOf entryKey
  dsimp only
  split <;> simp

/-- Columns of base scalars are ordered as the scalars are, each in its direction. -/
theorem IndexEntry.precedes_iff [OrderedExternals] {a b : Node AKey Value}
    (ha : ∀ s ∈ x.definition.tupleOf a, s.IsBase) (hb : ∀ s ∈ x.definition.tupleOf b, s.IsBase) :
    x.Precedes a b ↔ TupleLt x.definition.directions (x.definition.tupleOf a) (x.definition.tupleOf b) ∨
      x.definition.tupleOf a = x.definition.tupleOf b ∧ a.key < b.key := by
  have hlength : ∀ c, (x.definition.tupleOf c).length = x.definition.directions.length := fun c =>
    (x.definition.length_tupleOf c).trans x.definition.length_directions.symm
  unfold IndexEntry.Precedes IndexDef.encodeColumns
  rw [encodeColumns_lt_iff (hlength a) (hlength b) ha hb]

variable [LawfulExternals] [OrderedExternals] [LawfulFloats]

/-- Rows in the order of their keys are in the order of the index. -/
theorem IndexEntry.precedes_of_row {a b : Node AKey Value} (ha : ∀ s ∈ x.definition.tupleOf a, Fits s)
    (hb : ∀ s ∈ x.definition.tupleOf b, Fits s) (hlt : (x.rowOf a).1 < (x.rowOf b).1) : x.Precedes a b := by
  rw [x.rowOf_key, x.rowOf_key, Bytes.append_lt_append_iff] at hlt
  by_cases htuple : x.definition.tupleOf a = x.definition.tupleOf b
  · refine .inr ⟨htuple, ?_⟩
    rw [htuple, Bytes.append_lt_append_iff] at hlt
    split at hlt
    · exact absurd hlt (lt_irrefl _)
    · exact Bytes.OrderCode.lt_iff (fun _ _ h => AKey.intoBytes_below h) |>.1 hlt
  · have hlength : ∀ c, (x.definition.tupleOf c).length = x.definition.directions.length := fun c =>
      (x.definition.length_tupleOf c).trans x.definition.length_directions.symm
    exact .inl ((encodeColumns_incomparable (hlength a) (hlength b) ha hb htuple).lt_of_append hlt)

/-- A key starts with leading columns exactly if the tuple of its node does. -/
theorem IndexEntry.start_iff {leading : List Scalar} (harity : leading.length ≤ x.definition.columns.length)
    (hleading : ∀ s ∈ leading, Fits s) {a : Node AKey Value} (ha : ∀ s ∈ x.definition.tupleOf a, Fits s) :
    idPrefix x.id ++ x.definition.encodeColumns leading <+: (x.rowOf a).1 ↔ leading <+: x.definition.tupleOf a := by
  rw [x.rowOf_key, List.prefix_append_right_inj]
  refine encodeColumns_start_iff ?_ ?_ hleading ha _
  · rw [x.definition.length_directions]
    exact harity
  · rw [x.definition.length_tupleOf, x.definition.length_directions]

omit [LawfulExternals] [OrderedExternals] [LawfulFloats] in
/-- The columns of what is stored fit their keys. -/
theorem Stores.fits [LawfulMagnitudes] (h : Stores data T) {p : List Str} {a : Node AKey Value}
    (ha : T.rooted p = some a) (d : IndexDef) : ∀ s ∈ d.tupleOf a, Fits s := by
  intro s hs
  obtain ⟨column, -, rfl⟩ := List.mem_map.1 hs
  obtain ⟨k, _ | v⟩ := a
  · trivial
  · obtain ⟨hwf, hsize⟩ := h.valid (Stores.file_of_rooted ha)
    obtain ⟨root, -, hstored⟩ := Codec.stored_encode hsize
    have hdescend := hstored.descend hwf column.path.segments
    unfold columnOf
    rw [Option.bind_some]
    cases hw : v.descend column.path.segments with
    | none => trivial
    | some w =>
      rw [hw] at hdescend
      obtain ⟨off, -, hat⟩ := hdescend
      cases w with
      | leaf s => exact Ordered.fits_of_length (hat.scalar_length hsize)
      | list items => trivial
      | node fields => trivial

variable [LawfulMagnitudes]

/-- **The scan finds the nodes that start with the leading columns**: nothing but nodes at matched paths,
every file among them, in the order of the index. -/
theorem Stores.scan (h : Stores data T) (hexact : x.Exact T index) {leading : List Scalar}
    (harity : leading.length ≤ x.definition.columns.length) (hleading : ∀ s ∈ leading, Fits s) :
    ∃ nodes : List (List Str × Node AKey Value),
      scanPrefix index x.id (x.definition.encodeColumns leading) x.definition.unique = .ok (nodes.map (·.2.key)) ∧
      nodes.Pairwise (fun a b => x.Precedes a.2 b.2) ∧ (∀ pa ∈ nodes, x.Candidate T leading pa) ∧
      ∀ p k v, x.Candidate T leading (p, ⟨k, some v⟩) → (p, ⟨k, some v⟩) ∈ nodes := by
  let lower := idPrefix x.id ++ x.definition.encodeColumns leading
  let rows := (index.entries.dropWhile fun kv => kv.1 < lower).takeWhile fun kv => lower.isPrefixOf kv.1
  have hmem : ∀ kv, kv ∈ rows ↔ index.get kv.1 = some kv.2 ∧ lower <+: kv.1 := by
    intro kv
    rw [Bytes.mem_scan index.sorted lower, SortedMap.get_iff_mem]
  have hnode : ∀ kv ∈ rows, ∃ pa : List Str × Node AKey Value, x.Candidate T leading pa ∧ x.rowOf pa.2 = kv := by
    intro kv hkv
    obtain ⟨hget, hlower⟩ := (hmem kv).1 hkv
    obtain ⟨p, a, hcovers, ha, hrow⟩ := hexact.only ((List.prefix_append _ _).trans hlower) hget
    refine ⟨(p, a), ⟨hcovers, ha, ?_⟩, hrow⟩
    rw [← IndexEntry.start_iff harity hleading (h.fits ha _), hrow]
    exact hlower
  have : Nonempty (List Str × Node AKey Value) := ⟨([], ⟨.root, none⟩)⟩
  choose! node hcandidate hrow using hnode
  refine ⟨rows.map node, ?_, ?_, ?_, ?_⟩
  · change rows.mapM _ = _
    rw [List.map_map]
    apply Except.mapM_forall₂
    rw [List.forall₂_map_right_iff]
    refine List.forall₂_same.2 fun kv hkv => ?_
    have hkey := h.indexKey_eq (hcandidate kv hkv).2.1 x
    rw [hrow kv hkv] at hkey
    exact entryEntity_indexKey hkey
  · rw [List.pairwise_map]
    have hsorted : rows.Pairwise fun a b => a.1 < b.1 := by
      refine List.Pairwise.sublist ((List.takeWhile_sublist _).trans (List.dropWhile_sublist _)) ?_
      exact List.pairwise_map.1 index.sorted
    refine hsorted.imp_of_mem fun {a b} ha hb hlt => ?_
    obtain ⟨hcovers, hnode, -⟩ := hcandidate a ha
    obtain ⟨hcovers', hnode', -⟩ := hcandidate b hb
    refine IndexEntry.precedes_of_row (h.fits hnode _) (h.fits hnode' _) ?_
    rw [hrow a ha, hrow b hb]
    exact hlt
  · intro pa hpa
    obtain ⟨kv, hkv, rfl⟩ := List.mem_map.1 hpa
    exact hcandidate kv hkv
  · rintro p k v ⟨hcovers, hfile, hstart⟩
    have hkv : x.rowOf ⟨k, some v⟩ ∈ rows := by
      refine (hmem _).2 ⟨hexact.has ⟨p, k, v, hcovers, Stores.file_of_rooted hfile, rfl⟩, ?_⟩
      exact (IndexEntry.start_iff harity hleading (h.fits hfile _)).2 hstart
    refine List.mem_map.2 ⟨_, hkv, ?_⟩
    obtain ⟨-, hnode, -⟩ := hcandidate _ hkv
    obtain ⟨hpath, hsame⟩ := h.rooted_inj hnode hfile (IndexEntry.key_eq_of_row (hrow _ hkv))
    exact Prod.ext hpath hsame

/-! ## The hits -/

namespace GrabSource

variable {src : GrabSource} {α : Type} {load : Bytes → AdbResult α} {nodes : List (List Str × Node AKey Value)}

omit [LawfulExternals] [OrderedExternals] [LawfulFloats] [LawfulMagnitudes] in
/-- **The scope of a query**: of some nodes at matched paths those at or under the root. -/
theorem underRoot_nodes (hsrc : src.Serves x index data) (h : Stores data T) {root : APath}
    (hparse : ∃ pattern, Pattern.parse x.definition.pattern = .ok pattern)
    (hnodes : ∀ pa ∈ nodes, x.Covers pa.1 ∧ T.rooted pa.1 = some pa.2) :
    src.underRoot x root (nodes.map (·.2.key)) =
      .ok ((nodes.filter fun pa => root.names.isPrefixOf pa.1).map (·.2.key)) := by
  unfold underRoot
  split
  · rename_i hroot
    rw [hroot]
    simp
  · rename_i hroot
    obtain ⟨pattern, hparse⟩ := hparse
    rw [hparse, Except.ok_bind]
    -- A matched path is as long as the pattern.
    have hmatches : ∀ {p}, x.Covers p → PatternSeg.MatchesAll pattern.segs p := by
      rintro p ⟨pattern', hparse', hmatch⟩
      cases Except.ok.inj (hparse.symm.trans hparse')
      exact hmatch
    have hdepth : ∀ {p}, x.Covers p → p.length = pattern.depth := fun hp => (hmatches hp).length_eq.symm
    split
    · rename_i hshort
      have hnone : (nodes.filter fun pa => root.names.isPrefixOf pa.1) = [] := by
        refine List.filter_eq_nil_iff.2 fun pa hpa => ?_
        rw [List.isPrefixOf_iff_prefix]
        intro hunder
        have hle := hunder.length_le
        rw [hdepth (hnodes pa hpa).1] at hle
        omega
      rw [hnone]
      rfl
    · rename_i hlong
      dsimp only
      rw [Except.pure_eq_ok, List.filter_map]
      congr 2
      refine List.filter_congr fun pa hpa => ?_
      obtain ⟨hcovers, ha⟩ := hnodes pa hpa
      rw [Function.comp_apply, Bool.eq_iff_iff, decide_eq_true_iff, List.isPrefixOf_iff_prefix,
        hsrc.under hroot (by omega), Pattern.affectedEntities, Pattern.mem_walk_iff]
      constructor
      · rintro ⟨p, hmatch, hwalk, hline⟩
        obtain ⟨b, hb, hkey⟩ := h.walk_iff.1 hwalk
        obtain ⟨rfl, -⟩ := h.rooted_inj hb ha hkey
        rcases hline with habove | hunder
        · have hlength := hdepth hcovers
          rw [habove.eq_of_length_le (by omega)]
        · exact hunder
      · intro hunder
        exact ⟨pa.1, hmatches hcovers, h.walk_iff.2 ⟨pa.2, ha, rfl⟩, .inr hunder⟩

/-- The file at a node, if the principal may access it. -/
def pick (src : GrabSource) (pa : List Str × Node AKey Value) : Option Found :=
  match src.authorize pa.2.key with
  | .ok () => pa.2.leaf.map fun v => ⟨pa.1, pa.2.key, v⟩
  | .error _ => none

omit [LawfulExternals] [OrderedExternals] [LawfulFloats] [LawfulMagnitudes] in
theorem pick_eq_some {pa : List Str × Node AKey Value} {f : Found} :
    src.pick pa = some f ↔ src.authorize f.key = .ok () ∧ pa = (f.path, f.node) := by
  obtain ⟨p, k, leaf⟩ := pa
  obtain ⟨p', k', v⟩ := f
  unfold pick Found.node
  dsimp only
  split
  · rename_i hok
    cases leaf with
    | none => simp
    | some w =>
      simp only [Option.map_some, Option.some.injEq, Found.mk.injEq, Prod.mk.injEq, Node.mk.injEq]
      constructor
      · rintro ⟨rfl, rfl, rfl⟩
        exact ⟨hok, rfl, rfl, rfl⟩
      · rintro ⟨-, rfl, rfl, rfl⟩
        exact ⟨rfl, rfl, rfl⟩
  · rename_i err herr
    constructor
    · intro h
      cases h
    · rintro ⟨hok, hsame⟩
      cases hsame
      cases herr.symm.trans hok

omit [LawfulExternals] [OrderedExternals] [LawfulFloats] [LawfulMagnitudes] in
/-- An entity is loaded exactly if it is picked. -/
theorem loadEntity_node (hsrc : src.Serves x index data) (h : Stores data T) {pa : List Str × Node AKey Value}
    (ha : T.rooted pa.1 = some pa.2) : src.loadEntity load pa.2.key =
      match src.pick pa with
      | some f => (load (Codec.encode f.value)).map some
      | none => .ok none := by
  obtain ⟨p, k, leaf⟩ := pa
  dsimp only at ha
  unfold loadEntity pick
  dsimp only
  cases hauth : src.authorize k with
  | error err =>
    obtain ⟨msg, rfl⟩ := hsrc.denied hauth
    rfl
  | ok passed =>
    dsimp only
    rw [hsrc.entry]
    cases leaf with
    | some v =>
      have hfile := holds_file h.holds (Stores.file_of_rooted ha)
      rw [hfile]
      dsimp only [Option.map_some]
      rw [hsrc.verified hauth hfile, Except.ok_bind]
      cases load (Codec.encode v) <;> rfl
    | none =>
      cases hentry : data.get k with
      | none => rfl
      | some entry =>
        cases entry with
        | leaf blob => exact absurd hentry (h.not_file ha blob)
        | branch links =>
          dsimp only [Option.map_none]
          rw [hsrc.verified hauth hentry]
          rfl

omit [LawfulExternals] [OrderedExternals] [LawfulFloats] [LawfulMagnitudes] in
theorem loadAll_nodes (hsrc : src.Serves x index data) (h : Stores data T)
    (hnodes : ∀ pa ∈ nodes, T.rooted pa.1 = some pa.2) : src.loadAll load (nodes.map (·.2.key)) =
      (nodes.filterMap src.pick).mapM fun f => load (Codec.encode f.value) := by
  induction nodes with
  | nil => rfl
  | cons pa nodes ih =>
    rw [List.forall_mem_cons] at hnodes
    rw [List.map_cons, loadAll, loadEntity_node hsrc h hnodes.1, ih hnodes.2, List.filterMap_cons]
    cases src.pick pa with
    | none => rfl
    | some f =>
      dsimp only
      rw [List.mapM_cons]
      cases load (Codec.encode f.value) <;> rfl

/-- **A query of an exact index returns what it asks for**, once each and in order. -/
theorem Serves.executeQuery_hits (hsrc : src.Serves x index data) (h : Stores data T) (hexact : x.Exact T index)
    (hparse : ∃ pattern, Pattern.parse x.definition.pattern = .ok pattern) {q : IndexQuery}
    (hlookup : src.lookupIndex q.index = some x) (harity : q.leading.length ≤ x.definition.columns.length)
    (hleading : ∀ s ∈ q.leading, Fits s) :
    q.Yields x (src.authorize · = .ok ()) T load (src.executeQuery load q) := by
  obtain ⟨nodes, hscan, hsorted, hcandidate, hcomplete⟩ := h.scan hexact harity hleading
  let kept := nodes.filter fun pa => q.root.names.isPrefixOf pa.1
  let turned := if q.reverse then kept.reverse else kept
  have hkept : ∀ pa, pa ∈ turned ↔ pa ∈ nodes ∧ q.root.names <+: pa.1 := by
    intro pa
    have hsame : pa ∈ turned ↔ pa ∈ kept := by
      unfold turned
      split
      · exact List.mem_reverse
      · rfl
    rw [hsame, List.mem_filter, List.isPrefixOf_iff_prefix]
  refine ⟨turned.filterMap src.pick, ?_, ?_, ?_⟩
  · have hturn : (if q.reverse then (kept.map (·.2.key)).reverse else kept.map (·.2.key)) = turned.map (·.2.key) := by
      unfold turned
      split
      · exact List.map_reverse.symm
      · rfl
    unfold executeQuery
    rw [hlookup]
    dsimp only
    rw [if_neg (by omega), hsrc.scan, hscan, Except.ok_bind,
      underRoot_nodes hsrc h hparse fun pa hpa => ⟨(hcandidate pa hpa).1, (hcandidate pa hpa).2.1⟩, Except.ok_bind,
      hturn]
    exact loadAll_nodes hsrc h fun pa hpa => (hcandidate pa ((hkept pa).1 hpa).1).2.1
  · have hturned : turned.Pairwise fun a b => if q.reverse then x.Precedes b.2 a.2 else x.Precedes a.2 b.2 := by
      have hfiltered := hsorted.filter fun pa => q.root.names.isPrefixOf pa.1
      unfold turned
      split
      · exact List.pairwise_reverse.2 hfiltered
      · exact hfiltered
    refine List.Pairwise.filterMap _ (fun a b hab f hf g hg => ?_) hturned
    obtain ⟨-, rfl⟩ := pick_eq_some.1 hf
    obtain ⟨-, rfl⟩ := pick_eq_some.1 hg
    exact hab
  · intro f
    rw [List.mem_filterMap]
    constructor
    · rintro ⟨pa, hpa, hpick⟩
      obtain ⟨hpermitted, rfl⟩ := pick_eq_some.1 hpick
      obtain ⟨hnode, hunder⟩ := (hkept _).1 hpa
      obtain ⟨hcovers, hfile, hstart⟩ := hcandidate _ hnode
      exact ⟨Stores.file_of_rooted hfile, hcovers, hunder, hpermitted, hstart⟩
    · intro hf
      refine ⟨(f.path, f.node), (hkept _).2 ⟨?_, hf.under⟩, pick_eq_some.2 ⟨hf.permitted, rfl⟩⟩
      exact hcomplete _ _ _ ⟨hf.covered, h.rooted_eq hf.stored, hf.leading⟩

end GrabSource

end Hits

/-! ## The sources -/

theorem Pattern.affectedEntities_empty {pattern : Pattern} (hdepth : 0 < pattern.depth) (root : APath) :
    pattern.affectedEntities .empty root = [] := by
  refine List.eq_nil_iff_forall_not_mem.2 fun k hk => ?_
  obtain ⟨names, hmatch, hwalk, -⟩ := Pattern.mem_walk_iff.1 hk
  have hlength : names.length = pattern.depth := hmatch.length_eq.symm
  cases names with
  | nil =>
    rw [List.length_nil] at hlength
    omega
  | cons name names => cases hwalk

/-- A table that does not exist is empty. -/
theorem ReadTxn.data_closed {t : ReadTxn} (hclosed : t.opens = false) : t.data = .empty := by
  have hnone : t.db.tables.get t.table = none := by
    simpa [ReadTxn.opens, SortedMap.contains] using hclosed
  change (t.db.tables.get t.table).getD .empty = _
  rw [hnone]
  rfl

/-- A read transaction serves a query if the tags of what it permits hold. -/
theorem ReadTxn.serves (c : TagScheme) (t : ReadTxn) (x : IndexEntry)
    (hsealed : t.principal ≠ .unrestricted → ∀ k entry, t.authorizeStored k = .ok () → t.data.get k = some entry →
      t.tagHolds c k entry (t.storedMeta k) = true) : (t.source c).Serves x t.db.index t.data where
  scan _ := rfl
  under {pattern root k} hroot hdepth := by
    change k ∈ (if t.opens then _ else _) ↔ _
    split
    · rfl
    · rename_i hclosed
      have hpos := List.length_pos_iff.2 hroot
      rw [ReadTxn.data_closed (Bool.eq_false_iff.2 hclosed), Pattern.affectedEntities_empty (by omega)]
  entry _ := rfl
  denied {k err} herr := by
    change (if t.enforced then t.authorizeStored k else .ok ()) = _ at herr
    split at herr
    · exact authorize_error herr
    · cases herr
  verified {k entry} hok hentry := by
    change (if t.enforced then _ else _) = _
    change (if t.enforced then t.authorizeStored k else .ok ()) = _ at hok
    split
    · rename_i henforced
      rw [if_pos henforced] at hok
      exact if_pos (hsealed (of_decide_eq_true henforced) k entry hok hentry)
    · rfl

/-- A write transaction of an unprotected database with nothing buffered serves a query. -/
theorem Grab.serves {e : Env} {s : TxState} (hp : e.principal = .unrestricted) (control : Control) (registry : Registry)
    (x : IndexEntry) (hclean : ∀ k, s.buffer.dirs.get k = none ∧ s.buffer.files.get k = none) :
    (Grab.source e control registry s).Serves x s.index s.data where
  scan _ := rfl
  under _ _ := Iff.rfl
  entry k := by
    obtain ⟨hdirs, hfiles⟩ := hclean k
    change Grab.entryBlob s k = _
    unfold Grab.entryBlob
    rw [WriteBuffer.dirGet_eq, hdirs, WriteBuffer.fileGet_eq, hfiles]
  denied {k err} herr := by
    change Grab.authorize e s k .access = _ at herr
    rw [Grab.authorize, Grab.enforced, hp] at herr
    cases herr
  verified {k entry} _ _ := by
    obtain ⟨hdirs, hfiles⟩ := hclean k
    change Grab.verify e s k entry = _
    unfold Grab.verify
    rw [WriteBuffer.dirGet_eq, hdirs, WriteBuffer.fileGet_eq, hfiles, verifyIntegrity, hp]
    rfl

end ArborDb
