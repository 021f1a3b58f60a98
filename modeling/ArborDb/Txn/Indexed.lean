import ArborDb.Index.Rows
import ArborDb.Txn.Cursor

/-!
# Mutations keep the indexes exact

A call on an indexed table deletes the rows of what lies on the lines of its paths, changes the tree, and
inserts the rows of what lies there now. The change stays on these lines. So an index that was exact for
the tree before is exact for the tree after (`Call.keeps_exact`). A unique row is removed by its key alone:
no file may have the key of a directory, whose row need not be there.
-/

namespace ArborDb

open Prog (Keeps Triple)
open Layout (Holds Node Made Outside StoredAt Moved CopiedTo mapLeaf)

/-! ## What a mutation leaves alone -/

/-- What a mutation does not touch: the index table, and whether writes are buffered. -/
def TxState.aside (s : TxState) : SortedMap Bytes Bytes × Bool := (s.index, s.buffer.buffering)

section Aside

theorem putEntry_aside (k : AKey) (c : Entry) : Keeps TxState.aside (putEntry k c) := fun _ _ => rfl

theorem putFileEdit_aside (k : AKey) (b : Bytes) : Keeps TxState.aside (putFileEdit k b) := by
  intro e s
  change TxState.aside (if s.buffer.buffering then _ else _) = _
  split <;> rfl

theorem putDir_aside (k : AKey) (links : SortedMap Str AKey) : Keeps TxState.aside (putDir k links) := by
  intro e s
  change TxState.aside (if s.buffer.buffering then _ else _) = _
  split <;> rfl

theorem editDir_aside (k : AKey) (edit : SortedMap Str AKey → SortedMap Str AKey) :
    Keeps TxState.aside (editDir k edit) := by
  refine .bind (fun _ _ => rfl) fun _ => .bind (.inspect _) fun links => .bind (.inspect _) fun buffering => ?_
  split
  · exact fun _ _ => rfl
  · exact putDir_aside k _

theorem linkChild_aside (k : AKey) (name : Str) (c : AKey) : Keeps TxState.aside (linkChild k name c) :=
  editDir_aside k _

theorem unlinkChild_aside (k : AKey) (name : Str) : Keeps TxState.aside (unlinkChild k name) := editDir_aside k _

theorem generate_aside : Keeps TxState.aside generate := fun _ _ => rfl

theorem bounded_aside {α : Type} {f : Nat → TxM α} (h : ∀ fuel, Keeps TxState.aside (f fuel)) :
    Keeps TxState.aside (bounded f) := .bind (.inspect _) fun _ => h _

theorem ensureDirFrom_aside (k : AKey) (names : List Str) : Keeps TxState.aside (ensureDirFrom k names) := by
  induction names generalizing k with
  | nil => exact .pure _
  | cons name names ih =>
    refine .bind (.inspect _) fun _ => .bind (.inspect _) fun found => ?_
    cases found with
    | some c =>
      refine .bind (.inspect _) fun _ => ?_
      split
      · exact .fail _
      · exact ih c
    | none =>
      refine .bind (.inspect _) fun _ => .bind generate_aside fun c => ?_
      exact .bind (putDir_aside c _) fun _ => .bind (linkChild_aside k name c) fun _ => ih c

theorem ensureDir_aside (path : APath) : Keeps TxState.aside (ensureDir path) := by
  refine .bind (.bind (.inspect _) fun found => ?_) fun _ => ensureDirFrom_aside _ _
  split
  · exact .pure _
  · exact putDir_aside _ _

theorem cascadeDelete_aside (fuel : Nat) (k : AKey) : Keeps TxState.aside (cascadeDelete fuel k) := by
  induction fuel generalizing k with
  | zero => exact .fail _
  | succ fuel ih =>
    refine .bind (.inspect _) fun children => ?_
    cases children with
    | none => exact .pure _
    | some children => exact .bind (.forEach ih children) fun _ _ _ => rfl

theorem copyChildren_aside {copy : AKey → TxM AKey} (h : ∀ k, Keeps TxState.aside (copy k))
    (links : List (Str × AKey)) (copied : SortedMap Str AKey) :
    Keeps TxState.aside (copyChildren copy links copied) := by
  induction links generalizing copied with
  | nil => exact .pure _
  | cons link links ih => exact .bind (h link.2) fun _ => ih _

theorem deepCopy_aside (fuel : Nat) (k : AKey) : Keeps TxState.aside (deepCopy fuel k) := by
  induction fuel generalizing k with
  | zero => exact .fail _
  | succ fuel ih =>
    refine .bind (.inspect _) fun _ => .bind generate_aside fun fresh => .bind (.inspect _) fun found => ?_
    cases found with
    | none => exact .fail _
    | some kind =>
      cases kind with
      | file =>
        refine .bind (.inspect _) fun entry => ?_
        cases entry with
        | none => exact .fail _
        | some entry => exact .bind (putEntry_aside _ _) fun _ => .pure _
      | dir =>
        refine .bind (.inspect _) fun links => .bind (copyChildren_aside ih _ _) fun copied => ?_
        exact .bind (putDir_aside _ _) fun _ => .pure _

theorem storeBlobInto_aside (path : APath) (b : Bytes) : Keeps TxState.aside (storeBlobInto path b) := by
  refine .bind (.inspect _) fun split => .bind (ensureDir_aside _) fun parent => .bind (.inspect _) fun _ =>
    .bind (.inspect _) fun found => ?_
  cases found with
  | some node =>
    refine .bind (.inspect _) fun kind => ?_
    split
    · exact .bind (.inspect _) fun _ => putEntry_aside _ _
    · refine .bind (.inspect _) fun _ => .bind (.inspect _) fun _ => ?_
      refine .bind (bounded_aside fun _ => cascadeDelete_aside _ _) fun _ => .bind generate_aside fun fresh => ?_
      exact .bind (linkChild_aside _ _ _) fun _ => putEntry_aside _ _
  | none =>
    refine .bind (.inspect _) fun _ => .bind generate_aside fun fresh => ?_
    exact .bind (linkChild_aside _ _ _) fun _ => putEntry_aside _ _

theorem rmInto_aside (path : APath) : Keeps TxState.aside (rmInto path) := by
  refine .bind (.inspect _) fun split => .bind (.inspect _) fun parent => ?_
  cases parent with
  | none => exact .pure _
  | some parent =>
    refine .bind (.inspect _) fun _ => .bind (.inspect _) fun found => ?_
    cases found with
    | none => exact .pure _
    | some k =>
      refine .bind (.inspect _) fun _ => .bind (bounded_aside fun _ => cascadeDelete_aside _ _) fun _ => ?_
      exact .bind (unlinkChild_aside _ _) fun _ => .pure _

theorem clearSlot_aside (parent : AKey) (name : Str) : Keeps TxState.aside (clearSlot parent name) := by
  refine .bind (.inspect _) fun found => ?_
  cases found with
  | none => exact .pure _
  | some k => exact .bind (.inspect _) fun _ => bounded_aside fun _ => cascadeDelete_aside _ _

theorem mvInto_aside (src dst : APath) : Keeps TxState.aside (mvInto src dst) := by
  refine .bind (.inspect _) fun split => .bind (.inspect _) fun split' => .bind (.inspect _) fun parent => ?_
  cases parent with
  | none => exact .fail _
  | some parent =>
    refine .bind (.inspect _) fun _ => .bind (.inspect _) fun found => ?_
    cases found with
    | none => exact .fail _
    | some k =>
      refine .bind (.inspect _) fun _ => .bind (ensureDir_aside _) fun dst => .bind (.inspect _) fun _ => ?_
      refine .bind (clearSlot_aside _ _) fun _ => .bind (linkChild_aside _ _ _) fun _ => ?_
      exact unlinkChild_aside _ _

theorem cpInto_aside (src dst : APath) : Keeps TxState.aside (cpInto src dst) := by
  refine .bind (.inspect _) fun split => .bind (.inspect _) fun found => ?_
  cases found with
  | none => exact .fail _
  | some k =>
    refine .bind (ensureDir_aside _) fun parent => .bind (.inspect _) fun _ => .bind (clearSlot_aside _ _) fun _ => ?_
    exact .bind (bounded_aside fun _ => deepCopy_aside _ _) fun copy => linkChild_aside _ _ _

variable [Externals]

theorem putScalarInto_aside (path : APath) (hint : Option (AKey × UInt64)) (vpath : VPath) (scalar : Scalar) :
    Keeps TxState.aside (putScalarInto path hint vpath scalar) := by
  refine .bind (.inspect _) fun target => ?_
  cases target with
  | none => exact storeBlobInto_aside _ _
  | some target =>
    refine .bind (.inspect _) fun _ => .bind (.inspect _) fun patched => ?_
    cases patched with
    | some blob => exact putFileEdit_aside _ _
    | none => exact .bind (.inspect _) fun blob => putFileEdit_aside _ _

end Aside

/-! ## Calls and their lines -/

section Lines

variable [Externals]

/-- The trees are the same off the lines of the paths. -/
def SameOff (T T' : FsTree) (scopes : List APath) : Prop :=
  ∀ p, (∀ scope ∈ scopes, ¬ OnLine p scope.names) → T' p = T p

/-- The paths whose lines a call changes. Making directories changes no file. -/
def Call.scopes : Call → List APath
  | .store path _ => [path]
  | .storeValue path _ => [path]
  | .putScalar path _ _ _ => [path]
  | .mkdir _ => []
  | .rm path => [path]
  | .mv src dst => [src, dst]
  | .cp _ dst => [dst]

/-- The calls of the file system: what they store can be read back, a key captured earlier is that of the
path as long as the structure is unchanged, and no move or copy replaces an ancestor of its source. -/
def Call.Fits (s : TxState) (T : FsTree) : Call → Prop
  | .putScalar path hint vpath scalar =>
    Honest s T.blobs path hint ∧ Storable ((T.valueAt path.names).apply (.putScalar vpath scalar))
  | .mv src dst => ¬ dst.names <+: src.names
  | .cp src dst => ¬ dst.names <+: src.names
  | call => call.InScope

/-- What a call does to the tree. -/
def Call.Changes (T T' : FsTree) : Call → Prop
  | .putScalar path _ vpath scalar =>
    StoredAt T T' path.names ((T.valueAt path.names).apply (.putScalar vpath scalar))
  | call => call.Effect T T'

variable {T T' : FsTree} {path src dst : APath}

theorem SameOff.of_outside (h : Outside T T' path.names) : SameOff T T' [path] := by
  intro p hoff
  have hline := hoff path (List.mem_singleton.2 rfl)
  have hbelow : ¬ path.names <+: p := fun hpre => hline (.inr hpre)
  cases hp : T p with
  | some a => exact h.kept hbelow hp
  | none =>
    by_contra hne
    obtain ⟨a, ha⟩ := Option.ne_none_iff_exists'.1 hne
    exact hline (.inl (h.made hbelow hp ha).1)

theorem SameOff.of_moved (h : Moved T T' src.names dst.names) : SameOff T T' [src, dst] := by
  intro p hoff
  have hsrc : ¬ src.names <+: p := fun hpre => hoff src (by simp) (.inr hpre)
  have hdst := hoff dst (by simp)
  have hbelow : ¬ dst.names <+: p := fun hpre => hdst (.inr hpre)
  cases hp : T p with
  | some a => exact h.kept hbelow hsrc hp
  | none =>
    by_contra hne
    obtain ⟨a, ha⟩ := Option.ne_none_iff_exists'.1 hne
    exact hdst (.inl (h.made hbelow hp ha).1)

/-- A call that is not `mkdir` changes the tree on its lines alone. -/
theorem Call.Changes.sameOff {call : Call} (hlines : call.scopes ≠ []) (h : call.Changes T T') :
    SameOff T T' call.scopes := by
  cases call with
  | store path blob =>
    obtain ⟨x, -, hstored⟩ := h
    exact .of_outside hstored.toOutside
  | storeValue path value => exact .of_outside (StoredAt.toOutside h)
  | putScalar path hint vpath scalar => exact .of_outside (StoredAt.toOutside h)
  | mkdir path => exact absurd rfl hlines
  | rm path =>
    intro p hoff
    have hT' : T' = Layout.prune T path.names := h
    rw [hT', Layout.prune_of_not]
    exact fun hpre => hoff path (List.mem_singleton.2 rfl) (.inr hpre)
  | mv src dst => exact .of_moved h
  | cp src dst => exact .of_outside (CopiedTo.toOutside h)

/-- The root directory is on every line. -/
theorem SameOff.rooted {scopes : List APath} (h : SameOff T T' scopes) {p : List Str}
    (hoff : ∀ scope ∈ scopes, ¬ OnLine p scope.names) : T'.rooted p = T.rooted p := by
  unfold FsTree.rooted
  rw [h p hoff]

end Lines

/-! ## The rows of a bracket -/

section Bracket

variable [Externals]

/-- The rows of an index on a path's line. -/
def rowsOn (data : SortedMap AKey Entry) (x : IndexEntry) (scope : APath) : List (Bytes × Bytes) :=
  ((entriesFor data x scope).toOption).getD []

/-- The rows of some indexes on the lines of some paths. -/
def rowsOnAll (data : SortedMap AKey Entry) (xs : List IndexEntry) (scopes : List APath) : List (Bytes × Bytes) :=
  scopes.flatMap fun scope => xs.flatMap fun x => rowsOn data x scope

/-- In a unique index no file at a matched path has the key of a directory at one. -/
def IndexEntry.Apart (x : IndexEntry) (T : FsTree) : Prop :=
  x.definition.unique = true → ∀ p q a b, x.Covers p → x.Covers q → T.rooted p = some a → T.rooted q = some b →
    a.leaf ≠ none → b.leaf = none → (x.rowOf a).1 ≠ (x.rowOf b).1

/-- The rows of an index that is not unique have no value of their own. -/
def Valueless (xs : List IndexEntry) (index : SortedMap Bytes Bytes) : Prop :=
  ∀ x ∈ xs, x.definition.unique = false → ∀ key value, x.Owns key → index.get key = some value → value = []

variable {data : SortedMap AKey Entry} {T T' : FsTree} {x y : IndexEntry} {xs : List IndexEntry}
  {scopes : List APath} {index index' : SortedMap Bytes Bytes}

theorem entriesFor_rowsOn {scope : APath} {rows : List (Bytes × Bytes)} (h : entriesFor data x scope = .ok rows) :
    rows = rowsOn data x scope := by
  unfold rowsOn
  rw [h]
  rfl

omit [Externals] in
/-- The block of a key is that of one index. -/
theorem IndexEntry.eq_of_owns (hids : (xs.map IndexEntry.id).Nodup) (hx : x ∈ xs) (hy : y ∈ xs) {key : Bytes}
    (hkey : x.Owns key) (hkey' : y.Owns key) : x = y :=
  List.inj_on_of_nodup_map hids hx hy (idPrefix_inj hkey hkey')

section Stored

variable [LawfulExternals] (h : Stores data T)

include h

theorem mem_rowsOn {scope : APath} {r : Bytes × Bytes} : r ∈ rowsOn data x scope ↔
    ∃ p a, x.Covers p ∧ OnLine p scope.names ∧ T.rooted p = some a ∧ x.rowOf a = r := by
  cases hparse : Pattern.parse x.definition.pattern with
  | ok pattern =>
    obtain ⟨rows, hrows, hmem⟩ := h.entriesFor_tree hparse scope
    rw [← entriesFor_rowsOn hrows]
    exact hmem r
  | error err =>
    have hrows : rowsOn data x scope = [] := by
      unfold rowsOn entriesFor
      rw [hparse]
      rfl
    rw [hrows]
    constructor
    · exact fun hr => absurd hr List.not_mem_nil
    · rintro ⟨p, a, ⟨pattern, hpattern, -⟩, -⟩
      rw [hparse] at hpattern
      cases hpattern

theorem mem_rowsOnAll {r : Bytes × Bytes} : r ∈ rowsOnAll data xs scopes ↔
    ∃ scope ∈ scopes, ∃ x ∈ xs, ∃ p a, x.Covers p ∧ OnLine p scope.names ∧ T.rooted p = some a ∧ x.rowOf a = r := by
  unfold rowsOnAll
  rw [List.mem_flatMap]
  refine exists_congr fun scope => and_congr_right fun _ => ?_
  rw [List.mem_flatMap]
  exact exists_congr fun x => and_congr_right fun _ => mem_rowsOn h

end Stored

/-- **A bracket keeps an index exact.** Between the deletions and the insertions the tree changes on the
lines of the paths alone. -/
theorem IndexEntry.Exact.bracket [LawfulExternals] {data' : SortedMap AKey Entry} (hexact : x.Exact T index)
    (hx : x ∈ xs) (hids : (xs.map IndexEntry.id).Nodup) (h : Stores data T) (h' : Stores data' T')
    (hoff : SameOff T T' scopes) (hapart : x.Apart T)
    (hext : Derived.Extended (Derived.removed index (rowsOnAll data xs scopes)) index' (rowsOnAll data' xs scopes)) :
    x.Exact T' index' := by
  -- A file off the lines keeps its row: a row that is removed has another key.
  have hkept : ∀ p k v, x.Covers p → T p = some ⟨k, some v⟩ → (∀ scope ∈ scopes, ¬ OnLine p scope.names) →
      ∀ b ∈ rowsOnAll data xs scopes, b.1 ≠ (x.rowOf ⟨k, some v⟩).1 := by
    intro p k v hcovers hp hout b hb hkey
    obtain ⟨scope, hscope, y, hy, q, c, hcovers', hline, hq, rfl⟩ := (mem_rowsOnAll h).1 hb
    obtain rfl : y = x := IndexEntry.eq_of_owns hids hy hx (y.owns_rowOf c) (hkey ▸ x.owns_rowOf _)
    have hrows : y.rowOf c = y.rowOf ⟨k, some v⟩ := by
      cases hunique : y.definition.unique with
      | false => exact row_eq_of_key hunique hkey
      | true =>
        obtain ⟨j, _ | w⟩ := c
        · exact absurd hkey.symm
            (hapart hunique p q _ _ hcovers hcovers' (h.rooted_eq hp) hq (Option.some_ne_none _) rfl)
        · have hrow := hexact.has ⟨q, j, w, hcovers', Stores.file_of_rooted hq, rfl⟩
          have hrow' := hexact.has ⟨p, k, v, hcovers, hp, rfl⟩
          rw [hkey, hrow'] at hrow
          exact Prod.ext hkey (Option.some.inj hrow).symm
    obtain ⟨rfl, -⟩ := h.rooted_inj hq (h.rooted_eq hp) (key_eq_of_row hrows)
    exact hout scope hscope hline
  refine Derived.Tracks.bracket hexact hext ?_ ?_ ?_
  · rintro r ⟨p, k, v, hcovers, hp, rfl⟩
    by_cases hline : ∃ scope ∈ scopes, OnLine p scope.names
    · obtain ⟨scope, hscope, hline⟩ := hline
      exact .inl ((mem_rowsOnAll h').2 ⟨scope, hscope, x, hx, p, _, hcovers, hline, h'.rooted_eq hp, rfl⟩)
    · have hout : ∀ scope ∈ scopes, ¬ OnLine p scope.names := fun scope hscope hon => hline ⟨scope, hscope, hon⟩
      rw [hoff p hout] at hp
      exact .inr ⟨⟨p, k, v, hcovers, hp, rfl⟩, hkept p k v hcovers hp hout⟩
  · rintro r - ⟨p, a, hcovers, hp, rfl⟩ hfree
    by_cases hline : ∃ scope ∈ scopes, OnLine p scope.names
    · obtain ⟨scope, hscope, hline⟩ := hline
      exact absurd rfl (hfree _ ((mem_rowsOnAll h).2 ⟨scope, hscope, x, hx, p, a, hcovers, hline, hp, rfl⟩))
    · refine ⟨p, a, hcovers, ?_, rfl⟩
      rw [hoff.rooted fun scope hscope hon => hline ⟨scope, hscope, hon⟩]
      exact hp
  · intro r hr hown
    obtain ⟨scope, -, y, hy, p, a, hcovers, -, hp, rfl⟩ := (mem_rowsOnAll h').1 hr
    obtain rfl : y = x := IndexEntry.eq_of_owns hids hy hx (y.owns_rowOf a) hown
    exact ⟨p, a, hcovers, hp, rfl⟩

/-! ## The programs of the maintenance -/

variable {e : Env} {n : Nat} {s₀ : TxState}

/-- The state with rows removed from the index table. -/
def TxState.dropRows (s : TxState) (rows : List (Bytes × Bytes)) : TxState :=
  { s with index := Derived.removed s.index rows }

omit [Externals] in
theorem TxState.dropRows_append (s : TxState) (rows rows' : List (Bytes × Bytes)) :
    s.dropRows (rows ++ rows') = (s.dropRows rows).dropRows rows' := by
  unfold dropRows
  rw [Derived.removed_append]

theorem deleteEntries_rows (scope : APath) :
    Triple e n (· = s₀) (deleteEntries xs scope)
      (fun _ s => s = s₀.dropRows (xs.flatMap fun x => rowsOn s₀.data x scope)) (fun _ _ => True) := by
  refine (Triple.forEach (fun done s => s = s₀.dropRows (done.flatMap fun x => rowsOn s₀.data x scope)) ?_).pre ?_
  · intro done x rest _
    refine Triple.of_states ?_
    rintro s rfl
    refine Triple.inspect_at (fun _ _ => trivial) ?_
    intro rows hrows
    obtain rfl := entriesFor_rowsOn hrows
    refine (Triple.forEach (fun gone s =>
      s = (s₀.dropRows (done.flatMap fun x => rowsOn s₀.data x scope)).dropRows gone) ?_).consequence ?_ ?_
        fun _ _ h => h
    · intro gone r rest _
      apply Triple.modify
      rintro s rfl _
      rw [TxState.dropRows_append]
      rfl
    · rintro s rfl
      rfl
    · rintro _ s rfl
      rw [List.flatMap_append, List.flatMap_singleton, TxState.dropRows_append]
      rfl
  · rintro s rfl
    rfl

/-- What the maintenance deletes. -/
theorem deleteEntries_all :
    Triple e n (· = s₀) (Prog.forEach (deleteEntries xs) scopes)
      (fun _ s => s = s₀.dropRows (rowsOnAll s₀.data xs scopes)) (fun _ _ => True) := by
  refine (Triple.forEach (fun done s => s = s₀.dropRows (rowsOnAll s₀.data xs done)) ?_).pre ?_
  · intro done scope rest _
    refine Triple.of_states ?_
    rintro s rfl
    refine (deleteEntries_rows scope).post ?_
    rintro _ s rfl
    rw [rowsOnAll, rowsOnAll, List.flatMap_append, List.flatMap_singleton, TxState.dropRows_append]
    rfl
  · rintro s rfl
    rfl

/-- The index table has rows more than before, and the rows of an index that is not unique have no value. -/
structure Inserted (s₀ : TxState) (xs : List IndexEntry) (rows : List (Bytes × Bytes)) (s : TxState) : Prop where
  frame : s = { s₀ with index := s.index }
  extended : Derived.Extended s₀.index s.index rows
  valueless : Valueless xs s.index

variable [LawfulExternals] {rows : List (Bytes × Bytes)} {s : TxState}

omit [LawfulExternals] in
/-- A row goes in: a unique one where the key is free or has it already, another one with its node's key. -/
theorem insertRow_rows (hx : x ∈ xs) (hids : (xs.map IndexEntry.id).Nodup) (a : Node AKey Value) :
    Triple e n (Inserted s₀ xs rows) (do
        if x.definition.unique then
          inspect fun _ s => guardUnique s.index (x.rowOf a).1 (x.rowOf a).2 x.definition.name
        insertKey (x.rowOf a).1 (x.rowOf a).2)
      (fun _ => Inserted s₀ xs (rows ++ [x.rowOf a])) (fun _ _ => True) := by
  have hinsert : Triple e n (fun s => Inserted s₀ xs rows s ∧
      ∀ value, s.index.get (x.rowOf a).1 = some value → value = (x.rowOf a).2)
      (insertKey (x.rowOf a).1 (x.rowOf a).2) (fun _ => Inserted s₀ xs (rows ++ [x.rowOf a])) (fun _ _ => True) := by
    apply Triple.modify
    rintro s ⟨hs, hfree⟩ _
    refine ⟨?_, hs.extended.trans (.insert hfree), ?_⟩
    · rw [hs.frame]
    · intro y hy hunique key value hkey hvalue
      by_cases hrow : key = (x.rowOf a).1
      · subst hrow
        obtain rfl := IndexEntry.eq_of_owns hids hy hx hkey (x.owns_rowOf a)
        rw [SortedMap.get_insert_self] at hvalue
        cases hvalue
        exact y.rowOf_value hunique a
      · rw [SortedMap.get_insert_ne _ _ hrow] at hvalue
        exact hs.valueless y hy hunique key value hkey hvalue
  split
  · refine Triple.inspect (fun _ _ _ _ => trivial) fun _ => hinsert.pre ?_
    rintro s ⟨hs, hguard⟩
    refine ⟨hs, fun value hvalue => ?_⟩
    by_contra hne
    have hclash : guardUnique s.index (x.rowOf a).1 (x.rowOf a).2 x.definition.name =
        .error (.uniqueViolation x.definition.name) := by
      simp [guardUnique, hvalue, hne]
    rw [hclash] at hguard
    cases hguard
  · rename_i hunique
    have hfalse : x.definition.unique = false := Bool.eq_false_iff.2 hunique
    refine hinsert.pre ?_
    intro s hs
    refine ⟨hs, fun value hvalue => ?_⟩
    rw [x.rowOf_value hfalse]
    exact hs.valueless x hx hfalse _ _ (x.owns_rowOf a) hvalue

theorem insertEntries_rows (h : Stores s₀.data T) (hids : (xs.map IndexEntry.id).Nodup) (scope : APath) :
    Triple e n (Inserted s₀ xs rows) (insertEntries xs scope)
      (fun _ => Inserted s₀ xs (rows ++ xs.flatMap fun x => rowsOn s₀.data x scope)) (fun _ _ => True) := by
  refine (Triple.forEach (fun done => Inserted s₀ xs (rows ++ done.flatMap fun x => rowsOn s₀.data x scope)) ?_).pre ?_
  · intro done x rest hxs
    have hx : x ∈ xs := by simp [hxs]
    refine Triple.inspect (fun _ _ _ _ => trivial) fun new => ?_
    refine Triple.of_pre (p := new = rowsOn s₀.data x scope) ?_ ?_
    · rintro s ⟨hs, hnew⟩
      rw [hs.frame] at hnew
      exact entriesFor_rowsOn hnew
    · rintro rfl
      refine (Triple.forEach (fun put => Inserted s₀ xs
        ((rows ++ done.flatMap fun x => rowsOn s₀.data x scope) ++ put)) ?_).consequence ?_ ?_ fun _ _ h => h
      · intro put r rest hrows
        have hr : r ∈ rowsOn s₀.data x scope := by simp [hrows]
        obtain ⟨p, a, -, -, -, rfl⟩ := (mem_rowsOn h).1 hr
        rw [← List.append_assoc]
        exact insertRow_rows hx hids a
      · rintro s ⟨hs, -⟩
        rw [List.append_nil]
        exact hs
      · intro _ s hs
        rw [List.flatMap_append, List.flatMap_singleton, ← List.append_assoc]
        exact hs
  · intro s hs
    rw [List.flatMap_nil, List.append_nil]
    exact hs

/-- What the maintenance inserts. -/
theorem insertEntries_all (h : Stores s₀.data T) (hids : (xs.map IndexEntry.id).Nodup)
    (hvalueless : Valueless xs s₀.index) :
    Triple e n (· = s₀) (Prog.forEach (insertEntries xs) scopes) (fun _ => Inserted s₀ xs (rowsOnAll s₀.data xs scopes))
      (fun _ _ => True) := by
  refine (Triple.forEach (fun done => Inserted s₀ xs (rowsOnAll s₀.data xs done)) ?_).pre ?_
  · intro done scope rest _
    refine (insertEntries_rows h hids scope).post ?_
    intro _ s hs
    rw [rowsOnAll, List.flatMap_append, List.flatMap_singleton]
    exact hs
  · rintro s rfl
    exact ⟨rfl, .refl _, hvalueless⟩

/-! ## A mutation in its bracket -/

/-- The indexes are exact for the tree, and the rest of the index table is what it was. -/
structure Maintained (xs : List IndexEntry) (T : FsTree) (index index' : SortedMap Bytes Bytes) : Prop where
  exact : ∀ x ∈ xs, x.Exact T index'
  others : ∀ key, (∀ x ∈ xs, ¬ x.Owns key) → index'.get key = index.get key

omit [LawfulExternals] in
theorem valueless_of_exact (h : ∀ x ∈ xs, x.Exact T index) : Valueless xs index := by
  intro x hx hunique key value hkey hvalue
  obtain ⟨p, a, -, -, hrow⟩ := (h x hx).only hkey hvalue
  have hnone := x.rowOf_value hunique a
  rw [hrow] at hnone
  exact hnone

omit [LawfulExternals] in
theorem Represents.stores (h : Represents e n s T) (hoff : s.buffer.buffering = false) : Stores s.data T := by
  obtain ⟨⟨v, hs, ht⟩, hvalid⟩ := h
  have hdata : s.data.get = v := funext (hs.data_get (hs.coherent.off hoff))
  exact ⟨hdata ▸ ht, hvalid⟩

/-- **A mutation in its bracket keeps the indexes of its table exact.** -/
theorem reindexAround_exact {α : Type} {apply : TxM α} {R : FsTree → Prop} (h : Represents e n s T)
    (hids : (xs.map IndexEntry.id).Nodup) (hexact : ∀ x ∈ xs, x.Exact T s.index) (hapart : ∀ x ∈ xs, x.Apart T)
    (hoff : ∀ T', R T' → SameOff T T' scopes) (haside : Keeps TxState.aside apply)
    (happly : ∀ s₁, Represents e n s₁ T → s₁.buffer.epoch = s.buffer.epoch →
      Triple e n (· = s₁) apply (fun _ s' => ∃ T', Represents e n s' T' ∧ R T') (fun _ _ => True)) :
    Triple e n (· = s) (reindexAround xs scopes apply)
      (fun _ s' => ∃ T', Represents e n s' T' ∧ R T' ∧ Maintained xs T' s.index s'.index) (fun _ _ => True) := by
  have hstays : ∀ s₁ : TxState, Triple e n (· = s₁) apply (fun _ s' => s'.aside = s₁.aside) (fun _ _ => True) := by
    intro s₁
    refine (Triple.of_run (R := fun s' => s'.aside = s₁.aside) ?_).consequence (fun _ h => h) (fun _ _ h => h)
      fun _ _ _ => trivial
    rintro _ rfl
    exact haside e _
  unfold reindexAround
  split
  · rename_i hnone
    obtain rfl := List.isEmpty_iff.1 hnone
    refine ((happly s h rfl).and (hstays s)).post ?_
    rintro _ s' ⟨⟨T', hT', hR⟩, hsame⟩
    refine ⟨T', hT', hR, List.forall_mem_nil _, fun key _ => ?_⟩
    rw [(Prod.mk.inj hsame).1]
  · obtain ⟨⟨v, hs, ht⟩, hvalid⟩ := h
    refine Triple.bind ((flushAndDisable_spec hs).consequence (fun _ h => h) (fun _ _ h => h) fun _ _ h => h.elim) ?_
    intro _
    refine Triple.of_states ?_
    rintro s₁ ⟨hflushed, hbuffering⟩
    have hs₁ := hflushed.sees
    have hdata : Stores s₁.data T := by
      have hview : s₁.data.get = v := funext hflushed.data
      exact ⟨hview ▸ ht, hvalid⟩
    refine Triple.bind deleteEntries_all ?_
    intro _
    have hdropped : Represents e n (s₁.dropRows (rowsOnAll s₁.data xs scopes)) T := by
      refine Represents.setIndex (s := s₁) ⟨⟨v, ?_, ht⟩, hvalid⟩ _
      rw [hs₁.drawn]
      exact hs₁
    refine Triple.bind ((happly _ hdropped hflushed.epoch).and (hstays _)) ?_
    intro a
    refine Triple.of_states ?_
    rintro s₂ ⟨⟨T', hT', hR⟩, hsame⟩
    obtain ⟨hindex, hbuffering'⟩ := Prod.mk.inj hsame
    have hdata' : Stores s₂.data T' := hT'.stores (hbuffering'.trans hbuffering)
    have hvalueless : Valueless xs s₂.index := by
      intro x hx hunique key value hkey hvalue
      rw [hindex] at hvalue
      rw [← hflushed.index] at hexact
      exact valueless_of_exact hexact x hx hunique key value hkey (Derived.get_removed.1 hvalue).1
    refine Triple.bind (insertEntries_all hdata' hids hvalueless) ?_
    intro _
    apply Triple.pure
    intro s' hs'
    have hext := hs'.extended
    rw [hindex] at hext
    change Derived.Extended (Derived.removed s₁.index _) s'.index _ at hext
    rw [hflushed.index] at hext
    refine ⟨T', ?_, hR, ?_, ?_⟩
    · rw [hs'.frame]
      exact hT'.setIndex _
    · intro x hx
      exact (hexact x hx).bracket hx hids hdata hdata' (hoff T' hR) (hapart x hx) hext
    · intro key hkey
      rw [hext.get_ne, Derived.get_removed_ne]
      · intro r hr hrow
        obtain ⟨_, _, y, hy, _, a, _, _, _, rfl⟩ := (mem_rowsOnAll hdata).1 hr
        exact hkey y hy (hrow ▸ y.owns_rowOf a)
      · intro r hr hrow
        obtain ⟨_, _, y, hy, _, a, _, _, _, rfl⟩ := (mem_rowsOnAll hdata').1 hr
        exact hkey y hy (hrow ▸ y.owns_rowOf a)

/-- **A back-fill makes a fresh index exact.** -/
theorem backfill_exact (h : Stores s₀.data T) (hfree : ∀ key, x.Owns key → s₀.index.get key = none) :
    Triple e n (· = s₀) (backfill x)
      (fun _ s => s = { s₀ with index := s.index } ∧ x.Exact T s.index ∧
        ∀ key, ¬ x.Owns key → s.index.get key = s₀.index.get key) (fun _ _ => True) := by
  have hids : ([x].map IndexEntry.id).Nodup := List.nodup_singleton x.id
  have hinsert : Triple e n (Inserted s₀ [x] []) (backfill x)
      (fun _ => Inserted s₀ [x] ([] ++ [x].flatMap fun x => rowsOn s₀.data x .root)) (fun _ _ => True) :=
    insertEntries_rows h hids .root
  refine hinsert.consequence ?_ ?_ fun _ _ h => h
  · rintro s rfl
    refine ⟨rfl, .refl _, List.forall_mem_singleton.2 fun _ key value hkey hvalue => ?_⟩
    rw [hfree key hkey] at hvalue
    cases hvalue
  · intro _ s hs
    have hext := hs.extended
    rw [List.nil_append, List.flatMap_singleton] at hext
    refine ⟨hs.frame, ⟨?_, ?_⟩, ?_⟩
    · rintro r ⟨p, k, v, hcovers, hp, rfl⟩
      exact hext.added ((mem_rowsOn h).2 ⟨p, _, hcovers, onLine_nil p, h.rooted_eq hp, rfl⟩)
    · intro key value hkey hvalue
      rcases hext.only hvalue with hold | hr
      · rw [hfree key hkey] at hold
        cases hold
      · obtain ⟨p, a, hcovers, -, hp, hrow⟩ := (mem_rowsOn h).1 hr
        exact ⟨p, a, hcovers, hp, hrow⟩
    · intro key hkey
      refine hext.get_ne fun r hr hrow => ?_
      obtain ⟨p, a, -, -, -, rfl⟩ := (mem_rowsOn h).1 hr
      exact hkey (hrow ▸ x.owns_rowOf a)

end Bracket

/-! ## Calls -/

section Calls

variable [Externals] [LawfulExternals] {e : Env} {n : Nat} {s : TxState} {T T' : FsTree} {xs : List IndexEntry}
  {index : SortedMap Bytes Bytes} {call : Call}

omit [LawfulExternals] in
/-- What fits keeps fitting while the count of structural changes is the same. -/
theorem Call.Fits.congr {s₁ : TxState} (h : call.Fits s T) (hepoch : s₁.buffer.epoch = s.buffer.epoch) :
    call.Fits s₁ T := by
  cases call with
  | putScalar path hint vpath scalar =>
    refine ⟨fun key hkey => h.1 key ?_, h.2⟩
    rw [← hepoch]
    exact hkey
  | _ => exact h

theorem Call.prog_effects (hp : e.principal = .unrestricted) (hdist : Distinct e n) (h : Represents e n s T)
    (hscope : call.InScope) :
    Triple e n (· = s) (call.prog []) (fun _ s' => ∃ T', Represents e n s' T' ∧ call.Effect T T')
      (fun _ _ => True) :=
  (call_outcome hp hdist h hscope).consequence (fun _ h => h) (fun _ _ h => h) fun _ _ _ => trivial

/-- What a call does to the tree, without indexes. -/
theorem Call.prog_changes (hp : e.principal = .unrestricted) (hdist : Distinct e n) (h : Represents e n s T)
    (hfits : call.Fits s T) :
    Triple e n (· = s) (call.prog []) (fun _ s' => ∃ T', Represents e n s' T' ∧ call.Changes T T')
      (fun _ _ => True) := by
  cases call with
  | putScalar path hint vpath scalar =>
    obtain ⟨hhonest, hsize⟩ := hfits
    obtain ⟨⟨v, hs, ht⟩, hvalid⟩ := h
    change Triple e n (· = s) (putScalarInto path hint vpath scalar) _ _
    rcases T.file_or_noFile path.names with ⟨k, x, hfile⟩ | hno
    · rw [FsTree.valueAt_file hfile] at hsize
      refine (putScalarInto_edits ht hvalid hs hfile hhonest hsize).consequence (fun _ h => h) ?_ fun _ _ _ => trivial
      intro _ s' hs'
      refine ⟨_, hs'.represents, ?_⟩
      rw [Changes, FsTree.valueAt_file hfile]
      exact Layout.storedAt_setLeaf hfile
    · rw [FsTree.valueAt_noFile hno] at hsize
      refine (putScalarInto_creates hdist ht hvalid hs hno hhonest hsize).consequence (fun _ h => h) ?_
        fun _ _ _ => trivial
      rintro _ s' ⟨-, T', hT', hstored⟩
      refine ⟨T', hT', ?_⟩
      rw [Changes, FsTree.valueAt_noFile hno]
      exact hstored
  | mv src dst =>
    by_cases hbelow : src.names <+: dst.names
    · rw [prog, ArborDb.mv, if_pos hbelow]
      exact Triple.fail fun _ _ => trivial
    · exact prog_effects hp hdist h ⟨hbelow, hfits⟩
  | cp src dst =>
    by_cases hbelow : src.names <+: dst.names
    · rw [prog, ArborDb.cp, if_pos hbelow]
      exact Triple.fail fun _ _ => trivial
    · exact prog_effects hp hdist h ⟨hbelow, hfits⟩
  | _ => exact prog_effects hp hdist h hfits

omit [LawfulExternals] in
/-- Directories that are made on the way to a path have no rows to get. -/
theorem IndexEntry.Exact.made {x : IndexEntry} {p : List Str} (h : x.Exact T index) (hmade : Made T T' p) :
    x.Exact T' index := by
  refine Derived.Tracks.mono h ?_ ?_
  · rintro r ⟨q, k, v, hcovers, hq, rfl⟩
    refine ⟨q, k, v, hcovers, ?_, rfl⟩
    cases hold : T q with
    | none =>
      obtain ⟨-, hleaf⟩ := hmade.made hold hq
      cases hleaf
    | some a => rw [← hmade.kept hold, hq]
  · rintro r ⟨q, a, hcovers, hq, rfl⟩
    refine ⟨q, a, hcovers, ?_, rfl⟩
    unfold FsTree.rooted at hq ⊢
    split
    · rename_i hroot
      rw [if_pos hroot] at hq
      exact hq
    · rename_i hroot
      rw [if_neg hroot] at hq
      exact hmade.kept hq

/-- **A call keeps the indexes of its table exact.** If it returns, the tree changed as the call says, each
index is exact for the new tree, and the rest of the index table is what it was. -/
theorem Call.keeps_exact (hp : e.principal = .unrestricted) (hdist : Distinct e n) (h : Represents e n s T)
    (hfits : call.Fits s T) (hids : (xs.map IndexEntry.id).Nodup) (hexact : ∀ x ∈ xs, x.Exact T s.index)
    (hapart : ∀ x ∈ xs, x.Apart T) :
    Triple e n (· = s) (call.prog xs)
      (fun _ s' => ∃ T', Represents e n s' T' ∧ call.Changes T T' ∧ Maintained xs T' s.index s'.index)
      (fun _ _ => True) := by
  have hbare : ∀ s₁, Represents e n s₁ T → s₁.buffer.epoch = s.buffer.epoch →
      Triple e n (· = s₁) (call.prog []) (fun _ s' => ∃ T', Represents e n s' T' ∧ call.Changes T T')
        (fun _ _ => True) :=
    fun s₁ hs₁ hepoch => call.prog_changes hp hdist hs₁ (hfits.congr hepoch)
  have hoff : call.scopes ≠ [] → ∀ T', call.Changes T T' → SameOff T T' call.scopes :=
    fun hlines T' hchanges => hchanges.sameOff hlines
  cases call with
  | store path blob =>
    rw [prog] at hbare ⊢
    unfold storeBlobAt at hbare ⊢
    split
    · exact Triple.fail fun _ _ => trivial
    · rename_i hroot
      rw [if_neg hroot] at hbare
      exact reindexAround_exact h hids hexact hapart (hoff (by simp [scopes])) (storeBlobInto_aside _ _) hbare
  | storeValue path value =>
    rw [prog] at hbare ⊢
    unfold storeValueAt at hbare ⊢
    split
    · exact Triple.fail fun _ _ => trivial
    · rename_i hroot
      rw [if_neg hroot] at hbare
      exact reindexAround_exact h hids hexact hapart (hoff (by simp [scopes])) (storeBlobInto_aside _ _) hbare
  | putScalar path hint vpath scalar =>
    exact reindexAround_exact h hids hexact hapart (hoff (by simp [scopes])) (putScalarInto_aside _ _ _ _) hbare
  | mkdir path =>
    have haside : Keeps TxState.aside (prog xs (.mkdir path)) := .bind (ensureDir_aside path) fun _ => .pure _
    have hstays : Triple e n (· = s) (prog xs (.mkdir path)) (fun _ s' => s'.aside = s.aside) (fun _ _ => True) := by
      refine (Triple.of_run (R := fun s' => s'.aside = s.aside) ?_).consequence (fun _ h => h) (fun _ _ h => h)
        fun _ _ _ => trivial
      rintro _ rfl
      exact haside e _
    refine ((hbare s h rfl).and hstays).post ?_
    rintro _ s' ⟨⟨T', hT', hchanges⟩, hsame⟩
    obtain ⟨hindex, -⟩ := Prod.mk.inj hsame
    refine ⟨T', hT', hchanges, ?_, fun key _ => by rw [hindex]⟩
    intro x hx
    rw [hindex]
    exact (hexact x hx).made hchanges.1
  | rm path =>
    rw [prog] at hbare ⊢
    unfold ArborDb.rm at hbare ⊢
    refine Triple.bind (R := fun _ s' => ∃ T', Represents e n s' T' ∧ Changes T T' (.rm path) ∧
      Maintained xs T' s.index s'.index) ?_ fun _ => Triple.pure fun _ h => h
    split
    · exact Triple.fail fun _ _ => trivial
    · rename_i hroot
      rw [if_neg hroot] at hbare
      exact reindexAround_exact h hids hexact hapart (hoff (by simp [scopes])) (rmInto_aside _)
        fun s₁ hs₁ hepoch => (hbare s₁ hs₁ hepoch).of_dropped
  | mv src dst =>
    rw [prog] at hbare ⊢
    unfold ArborDb.mv at hbare ⊢
    split
    · exact Triple.fail fun _ _ => trivial
    · rename_i hbelow
      split
      · exact Triple.fail fun _ _ => trivial
      · rename_i hsrc
        split
        · exact Triple.fail fun _ _ => trivial
        · rename_i hdst
          rw [if_neg hbelow, if_neg hsrc, if_neg hdst] at hbare
          exact reindexAround_exact h hids hexact hapart (hoff (by simp [scopes])) (mvInto_aside _ _) hbare
  | cp src dst =>
    rw [prog] at hbare ⊢
    unfold ArborDb.cp at hbare ⊢
    split
    · exact Triple.fail fun _ _ => trivial
    · rename_i hbelow
      split
      · exact Triple.fail fun _ _ => trivial
      · rename_i hdst
        rw [if_neg hbelow, if_neg hdst] at hbare
        exact reindexAround_exact h hids hexact hapart (hoff (by simp [scopes])) (cpInto_aside _ _) hbare

end Calls

end ArborDb