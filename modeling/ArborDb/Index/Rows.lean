import ArborDb.Index.Agree
import ArborDb.Index.Registry
import ArborDb.Lib.Derived
import ArborDb.Txn.FileSystem

/-!
# What an index says of a tree

An index is a table derived from the tree of its table. The row of a node is computed from the scalars at
the columns in its value. An index is exact if every file at a path that its pattern matches has its row,
and its block holds no row but those of nodes at such paths. The maintenance computes these rows from the
stored entries (`entriesFor_tree`).
-/

namespace ArborDb

open Layout (Holds Node)

section Rows

variable [Externals]

/-! ## Rows -/

/-- The scalar at a column of a node, `null` in a directory and where the path leads to no leaf. -/
def columnOf (a : Node AKey Value) (column : VPath) : Scalar :=
  ((a.leaf.bind fun v => v.descend column.segments).bind Value.asLeaf).getD .null

/-- The column tuple of a node. -/
def IndexDef.tupleOf (d : IndexDef) (a : Node AKey Value) : List Scalar := d.columns.map fun c => columnOf a c.path

/-- The tree with the root directory that every table has, stored or not. -/
def FsTree.rooted (T : FsTree) : FsTree := fun p => if p = [] then some ⟨.root, none⟩ else T p

namespace IndexEntry

variable (x : IndexEntry)

/-- The row of a node. -/
def rowOf (a : Node AKey Value) : Bytes × Bytes :=
  let cols := x.definition.encodeColumns (x.definition.tupleOf a)
  if x.definition.unique then (entryKey x.id cols none, a.key.intoBytes)
  else (entryKey x.id cols (some a.key), [])

/-- The key lies in the block of the index. -/
def Owns (key : Bytes) : Prop := idPrefix x.id <+: key

/-- The pattern matches the path. -/
def Covers (p : List Str) : Prop :=
  ∃ pattern, Pattern.parse x.definition.pattern = .ok pattern ∧ PatternSeg.MatchesAll pattern.segs p

/-- A row of a node at a matched path. -/
def NodeRow (T : FsTree) (r : Bytes × Bytes) : Prop := ∃ p a, x.Covers p ∧ T.rooted p = some a ∧ x.rowOf a = r

/-- A row of a file at a matched path. -/
def FileRow (T : FsTree) (r : Bytes × Bytes) : Prop :=
  ∃ p k v, x.Covers p ∧ T p = some ⟨k, some v⟩ ∧ x.rowOf ⟨k, some v⟩ = r

/-- **The index is exact**: it has the row of every file at a matched path, and in its block no row but
those of nodes at matched paths. -/
def Exact (T : FsTree) (index : SortedMap Bytes Bytes) : Prop :=
  Derived.Tracks index x.Owns (x.FileRow T) (x.NodeRow T)

/-- In a unique index no two files at matched paths have the same columns. -/
def NoTwins (T : FsTree) : Prop := x.definition.unique = true → ∀ p q a b, x.Covers p → x.Covers q → T p = some a →
  T q = some b → a.leaf ≠ none → b.leaf ≠ none →
    x.definition.encodeColumns (x.definition.tupleOf a) = x.definition.encodeColumns (x.definition.tupleOf b) → p = q

theorem owns_rowOf (a : Node AKey Value) : x.Owns (x.rowOf a).1 := by
  unfold rowOf
  dsimp only
  split <;> exact ⟨_, (List.append_assoc _ _ _).symm⟩

theorem rowOf_value (h : x.definition.unique = false) (a : Node AKey Value) : (x.rowOf a).2 = [] := by
  unfold rowOf
  rw [h]
  rfl

variable {x} {a b : Node AKey Value}

theorem key_eq_of_row (h : x.rowOf a = x.rowOf b) : a.key = b.key := by
  have hbytes : a.key.intoBytes = b.key.intoBytes := by
    unfold rowOf at h
    dsimp only at h
    split at h
    · exact (Prod.mk.inj h).2
    · exact (List.append_inj' (Prod.mk.inj h).1 (by rw [Option.map_some, Option.map_some]; simp)).2
  have hkey := AKey.tryFromBytes_intoBytes a.key
  rw [hbytes, AKey.tryFromBytes_intoBytes] at hkey
  exact (Except.ok.inj hkey).symm

/-- A row of an index that is not unique names its node. -/
theorem row_eq_of_key (hunique : x.definition.unique = false) (h : (x.rowOf a).1 = (x.rowOf b).1) :
    x.rowOf a = x.rowOf b :=
  Prod.ext h ((x.rowOf_value hunique a).trans (x.rowOf_value hunique b).symm)

end IndexEntry

/-! ## The rows the maintenance computes -/

/-- The table holds the tree. -/
structure Stores (data : SortedMap AKey Entry) (T : FsTree) : Prop where
  holds : Holds .root data.get T.blobs
  valid : T.Valid

namespace Stores

variable {data : SortedMap AKey Entry} {T : FsTree} (h : Stores data T) {p q : List Str} {a b : Node AKey Value}
  {k : AKey} {v : Value}

include h

/-- What is at the root is the root directory. -/
theorem top (ha : T [] = some a) : a = ⟨.root, none⟩ := by
  have hblob : T.blobs [] = some (a.mapLeaf Codec.encode) := Layout.mapLeaf_of_some ha
  have htop := h.holds.top hblob
  obtain ⟨k, _ | x⟩ := a
  · have hkey : k = .root := congrArg Node.key htop
    rw [hkey]
  · cases htop

theorem rooted_eq (ha : T p = some a) : T.rooted p = some a := by
  unfold FsTree.rooted
  split
  · rename_i hp
    subst hp
    rw [h.top ha]
  · exact ha

omit h in
theorem file_of_rooted (ha : T.rooted p = some ⟨k, some v⟩) : T p = some ⟨k, some v⟩ := by
  unfold FsTree.rooted at ha
  split at ha
  · cases ha
  · exact ha

/-- The links of the table lead to the nodes of the tree. -/
theorem walk_iff : Layout.walk data.get .root p = some k ↔ ∃ a, T.rooted p = some a ∧ a.key = k := by
  unfold FsTree.rooted
  by_cases hp : p = []
  · rw [if_pos hp, hp, Layout.walk]
    constructor
    · intro hk
      exact ⟨_, rfl, Option.some.inj hk⟩
    · rintro ⟨a, ha, rfl⟩
      cases ha
      rfl
  · rw [if_neg hp, h.holds.walk_root hp, Option.map_eq_some_iff]
    constructor
    · rintro ⟨b, hb, rfl⟩
      obtain ⟨a, ha, rfl⟩ := Layout.mapLeaf_eq_some hb
      exact ⟨a, ha, rfl⟩
    · rintro ⟨a, ha, rfl⟩
      exact ⟨_, Layout.mapLeaf_of_some ha, rfl⟩

/-- A key is that of one node. -/
theorem rooted_inj (ha : T.rooted p = some a) (hb : T.rooted q = some b) (hkey : a.key = b.key) : p = q ∧ a = b := by
  have hroot : ∀ {r c}, T.rooted r = some c → c.key = .root → T [] ≠ none → r = [] := by
    intro r c hc hkey hstored
    obtain ⟨top, htop⟩ := Option.ne_none_iff_exists'.1 hstored
    have hblob : T.blobs [] = some (top.mapLeaf Codec.encode) := Layout.mapLeaf_of_some htop
    unfold FsTree.rooted at hc
    split at hc
    · assumption
    · refine h.holds.inj (Layout.mapLeaf_of_some hc) hblob ?_
      rw [h.top htop]
      exact hkey
  have hnone : ∀ {r c}, T [] = none → T.rooted r = some c → r = [] := by
    intro r c hempty hc
    by_contra hr
    rw [FsTree.rooted, if_neg hr] at hc
    have hgone := h.holds.none_append (Layout.mapLeaf_eq_none.2 hempty) r
    rw [List.nil_append] at hgone
    rw [Layout.mapLeaf_eq_none.1 hgone] at hc
    cases hc
  have hpath : p = q := by
    by_cases hempty : T [] = none
    · rw [hnone hempty ha, hnone hempty hb]
    · unfold FsTree.rooted at ha hb
      by_cases hp : p = []
      · rw [if_pos hp] at ha
        cases ha
        rw [hp, hroot (r := q) (c := b) (by unfold FsTree.rooted; exact hb) hkey.symm hempty]
      · by_cases hq : q = []
        · rw [if_pos hq] at hb
          cases hb
          rw [hq, hroot (r := p) (c := a) (by unfold FsTree.rooted; exact ha) hkey hempty]
        · rw [if_neg hp] at ha
          rw [if_neg hq] at hb
          exact h.holds.inj (Layout.mapLeaf_of_some ha) (Layout.mapLeaf_of_some hb) hkey
  subst hpath
  exact ⟨rfl, Option.some.inj (ha.symm.trans hb)⟩

/-- An exact unique index tells its files apart. -/
theorem noTwins {x : IndexEntry} {index : SortedMap Bytes Bytes} (hexact : x.Exact T index) : x.NoTwins T := by
  intro hunique p q a b hp hq ha hb hfile hfile' hcolumns
  obtain ⟨j, v⟩ := a
  obtain ⟨k, w⟩ := b
  obtain ⟨v, rfl⟩ := Option.ne_none_iff_exists'.1 hfile
  obtain ⟨w, rfl⟩ := Option.ne_none_iff_exists'.1 hfile'
  have hkey : (x.rowOf ⟨j, some v⟩).1 = (x.rowOf ⟨k, some w⟩).1 := by
    unfold IndexEntry.rowOf
    simp [hunique, hcolumns]
  have hrow := hexact.has ⟨p, j, v, hp, ha, rfl⟩
  have hrow' := hexact.has ⟨q, k, w, hq, hb, rfl⟩
  rw [hkey, hrow'] at hrow
  have hsame : x.rowOf ⟨j, some v⟩ = x.rowOf ⟨k, some w⟩ := Prod.ext hkey (Option.some.inj hrow).symm
  exact (h.rooted_inj (h.rooted_eq ha) (h.rooted_eq hb) (IndexEntry.key_eq_of_row hsame)).1

/-- No file is stored under the key of a directory. -/
theorem not_file (ha : T.rooted p = some ⟨k, none⟩) (blob : Bytes) : data.get k ≠ some (.file blob) := by
  intro hblob
  unfold FsTree.rooted at ha
  split at ha
  · cases ha
    have hstored : data.get .root ≠ none := by simp [hblob]
    obtain ⟨links, hlinks, -⟩ := h.holds.branch (h.holds.root_of_stored hstored)
    rw [hlinks] at hblob
    cases hblob
  · obtain ⟨links, hlinks, -⟩ := holds_dir h.holds ha
    rw [hlinks] at hblob
    cases hblob

/-- What the links lead to is stored. -/
theorem stored_of_walk (hk : Layout.walk data.get .root p = some k) (hp : p ≠ []) : data.get k ≠ none := by
  obtain ⟨⟨k, leaf⟩, ha, rfl⟩ := h.walk_iff.1 hk
  rw [FsTree.rooted, if_neg hp] at ha
  cases leaf with
  | none =>
    obtain ⟨links, hlinks, -⟩ := holds_dir h.holds ha
    rw [hlinks]
    exact Option.some_ne_none _
  | some v =>
    rw [holds_file h.holds ha]
    exact Option.some_ne_none _

/-- Only the root may be without an entry. -/
theorem root_of_absent (hk : Layout.walk data.get .root p = some k) (hentry : data.get k = none) :
    p = [] ∧ k = .root := by
  have hp : p = [] := by
    by_contra hne
    exact h.stored_of_walk hk hne hentry
  subst hp
  exact ⟨rfl, (Option.some.inj hk).symm⟩

variable [LawfulExternals]

/-- A column of a stored node is that of its value. -/
theorem columnScalar_eq (ha : T.rooted p = some a) (column : VPath) :
    columnScalar data a.key column = .ok (columnOf a column) := by
  unfold columnScalar
  obtain ⟨k, _ | v⟩ := a
  · dsimp only
    split
    · exact absurd ‹_› (h.not_file ha _)
    · rfl
  · have hT := file_of_rooted ha
    obtain ⟨hwf, hsize⟩ := h.valid hT
    obtain ⟨root, hnew, hstored⟩ := Codec.stored_encode hsize
    rw [holds_file h.holds hT]
    dsimp only
    rw [hnew, Except.ok_bind]
    have hdescend := hstored.descend hwf column.segments
    change (ArchivedNode.descend ⟨Codec.encode v, root⟩ column.segments >>= _) = _
    unfold columnOf
    rw [Option.bind_some]
    cases hw : v.descend column.segments with
    | none =>
      rw [hw] at hdescend
      rw [hdescend]
      rfl
    | some w =>
      rw [hw] at hdescend
      obtain ⟨off, hnav, hat⟩ := hdescend
      rw [hnav, Except.ok_bind]
      dsimp only
      rw [hat.kind, Except.ok_bind]
      cases w with
      | leaf s => exact hat.scalar hsize
      | list items => rfl
      | node fields => rfl

theorem indexKey_eq (ha : T.rooted p = some a) (x : IndexEntry) :
    indexKey data x.id x.definition a.key = .ok (x.rowOf a) := by
  have hcolumns : columnValues data x.definition.columns a.key = .ok (x.definition.tupleOf a) := by
    unfold columnValues IndexDef.tupleOf
    apply Except.mapM_forall₂
    rw [List.forall₂_map_right_iff]
    exact List.forall₂_same.2 fun c _ => h.columnScalar_eq ha c.path
  unfold indexKey IndexEntry.rowOf
  rw [hcolumns, Except.ok_bind]
  dsimp only
  split <;> rfl

/-- **The maintenance computes the rows of the nodes on a line.** -/
theorem entriesFor_tree {x : IndexEntry} {pattern : Pattern} (hparse : Pattern.parse x.definition.pattern = .ok pattern)
    (scope : APath) : ∃ rows, entriesFor data x scope = .ok rows ∧
      ∀ r, r ∈ rows ↔ ∃ p a, x.Covers p ∧ OnLine p scope.names ∧ T.rooted p = some a ∧ x.rowOf a = r := by
  have hmem : ∀ k, k ∈ pattern.affectedEntities data scope ↔
      ∃ p a, x.Covers p ∧ OnLine p scope.names ∧ T.rooted p = some a ∧ a.key = k := by
    intro k
    rw [Pattern.affectedEntities, Pattern.mem_walk_iff]
    constructor
    · rintro ⟨p, hmatch, hwalk, hline⟩
      obtain ⟨a, ha, hkey⟩ := h.walk_iff.1 hwalk
      exact ⟨p, a, ⟨pattern, hparse, hmatch⟩, hline, ha, hkey⟩
    · rintro ⟨p, a, ⟨pattern', hparse', hmatch⟩, hline, ha, hkey⟩
      cases Except.ok.inj (hparse.symm.trans hparse')
      exact ⟨p, hmatch, h.walk_iff.2 ⟨a, ha, hkey⟩, hline⟩
  have hrow : ∀ k ∈ pattern.affectedEntities data scope, ∃ row, indexKey data x.id x.definition k = .ok row := by
    intro k hk
    obtain ⟨p, a, -, -, ha, rfl⟩ := (hmem k).1 hk
    exact ⟨_, h.indexKey_eq ha x⟩
  obtain ⟨rows, hrows⟩ := Except.exists_mapM hrow
  refine ⟨rows, ?_, fun r => ?_⟩
  · unfold entriesFor
    rw [hparse]
    exact hrows
  · rw [Except.mem_mapM hrows]
    constructor
    · rintro ⟨k, hk, hr⟩
      obtain ⟨p, a, hcovers, hline, ha, rfl⟩ := (hmem k).1 hk
      rw [h.indexKey_eq ha] at hr
      exact ⟨p, a, hcovers, hline, ha, Except.ok.inj hr⟩
    · rintro ⟨p, a, hcovers, hline, ha, rfl⟩
      exact ⟨a.key, (hmem a.key).2 ⟨p, a, hcovers, hline, ha, rfl⟩, h.indexKey_eq ha x⟩

end Stores

end Rows

end ArborDb
