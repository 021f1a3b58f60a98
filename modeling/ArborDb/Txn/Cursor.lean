import ArborDb.Txn.Edit

/-!
# What a cursor promises

An edit that returns is found by the next read of the cursor exactly if its path fits the value; where
it does not fit, the call returns all the same and nothing is kept. A removal that finds nothing still
writes the file, and so creates it anew when it has vanished.
-/

namespace ArborDb

open Prog (Triple)
open Layout (Holds Node StoredAt mapLeaf)

section

variable [Externals] [LawfulExternals] {e : Env} {n d : Nat} {v : View} {s s₁ s' : TxState} {T : FsTree} {path : APath}
  {c : Cursor} {indexes : List IndexEntry} {vpath : VPath} {scalar : Scalar} {hint : Option (AKey × UInt64)} {k : AKey}
  {x : Value}

/-! ## Writing where there is no file -/

omit [LawfulExternals] in
/-- What a cursor loads, from what a read of its key gives. -/
theorem loadValueAt_walk {P : Policy e} (hs : Sees P n d v s) {o : Option Entry}
    (hwalk : Layout.walk v .root path.names = some k) (hread : readVerified e s k = .ok o) :
    loadValueAt e s path = match o with
      | none => .ok none
      | some (.file b) => do return some (← Codec.decode b)
      | some (.dir _) => .error (Grab.isADirectory path) := by
  have hbuffered : resolveBuffered s path = some k := (hs.resolveBuffered_walk ..).trans hwalk
  unfold loadValueAt
  rw [hbuffered]
  simp only [hread, Except.ok_bind]
  rcases o with _ | _ | _ <;> rfl

omit [Externals] [LawfulExternals] in
theorem walk_of_resolve {P : Policy e} {t : ATree} (hs : Sees P n d v s) (ht : Holds .root v t) {r : Option AKey}
    (hr : resolve e s path = .ok r) : Layout.walk v .root path.names = r := by
  by_cases hne : path.names = []
  · unfold resolve at hr
    rw [hne] at hr ⊢
    exact Except.ok.inj hr
  · rw [ht.walk_root hne, hs.resolve_tree ht hne hr]

omit [LawfulExternals] in
/-- A scalar write without a target edits what the cursor reads as a default value. -/
theorem loadValueAt_of_noTarget {P : Policy e} {t : ATree} (hs : Sees P n d v s) (ht : Holds .root v t)
    (h : resolveTarget e s path hint = .ok none) : loadValueAt e s path = .ok none := by
  rcases resolveTarget_none h with hr | ⟨j, hr, hread⟩
  · have hwalk : resolveBuffered s path = none := (hs.resolveBuffered_walk ..).trans (walk_of_resolve hs ht hr)
    unfold loadValueAt
    rw [hwalk]
  · rw [loadValueAt_walk hs (walk_of_resolve hs ht hr) hread]

omit [LawfulExternals] in
/-- A scalar write whose target is a directory fails, and so does the read of the cursor. -/
theorem loadValueAt_of_dirTarget {P : Policy e} (hs : Sees P n d v s) (ht : Holds .root v T.blobs)
    (hhonest : Honest s T.blobs path hint) {m : SortedMap Str AKey}
    (h : resolveTarget e s path hint = .ok (some (k, .dir m))) : ∃ err, loadValueAt e s path = .error err := by
  have hread : readVerified e s k = .ok (some (.dir m)) := (resolveTarget_cases h).1
  have hwalk : Layout.walk v .root path.names = some k := by
    rcases (resolveTarget_cases h).2 with hhint | hr
    · obtain ⟨a, ha, hkey⟩ := Option.map_eq_some_iff.1 (hhonest k hhint)
      obtain ⟨b, hb, rfl⟩ := Layout.mapLeaf_eq_some ha
      rw [holds_walk ht hb]
      exact congrArg some hkey
    · exact walk_of_resolve hs ht hr
  exact ⟨_, loadValueAt_walk hs hwalk hread⟩

/-- What keeps a value from being stored where there is no file. -/
def Unstorable (e : Env) (T : FsTree) (path : APath) : Prop :=
  path.isRoot = true ∨ Barred e T.blobs path.names.dropLast

/-- Setting a scalar where there is no file creates it, unless there is a directory that is seen. -/
theorem putScalarInto_creates (hdist : Distinct e n) (ht : Holds .root v T.blobs) (hvalid : T.Valid)
    (hs₁ : Sees (.base e) n d v s₁) (hno : T.NoFile path.names) (hhonest : Honest s₁ T.blobs path hint)
    (hsize : Storable (Value.default.apply (.putScalar vpath scalar))) :
    Triple e n (· = s₁) (putScalarInto path hint vpath scalar)
      (fun _ s' => loadValueAt e s₁ path = .ok none ∧ ∃ T', Represents e n s' T' ∧
        StoredAt T T' path.names (Value.default.apply (.putScalar vpath scalar)))
      (Refused s₁ (Unstorable e T path ∨ ∃ err, loadValueAt e s₁ path = .error err)) := by
  unfold putScalarInto
  refine Triple.inspect_at (fun _ herr => ⟨rfl, .inl (.inr (.inl (resolveTarget_error hs₁ herr)))⟩) ?_
  intro target htarget
  cases target with
  | none =>
    refine (storeBlobInto_effect hdist ht hvalid hsize hs₁).consequence (fun _ h => h) ?_ fun _ _ h => ⟨h.1, .inl h.2⟩
    intro _ s' hs'
    exact ⟨loadValueAt_of_noTarget hs₁ ht htarget, hs'⟩
  | some target =>
    obtain ⟨j, entry⟩ := target
    cases entry with
    | leaf b =>
      obtain ⟨hread, hkey | hempty⟩ := resolveTarget_some hs₁ ht hhonest htarget
      · have hv := hs₁.readVerified_file hread
        obtain ⟨a, ha, hkey⟩ := Option.map_eq_some_iff.1 hkey
        obtain ⟨⟨j', _ | y⟩, hT, rfl⟩ := Layout.mapLeaf_eq_some ha
        · obtain ⟨links, hlinks, -⟩ := holds_dir ht hT
          change j' = j at hkey
          rw [hkey, hv] at hlinks
          cases hlinks
        · exact absurd hT (hno j' y)
      · have hv := hs₁.readVerified_file hread
        rw [ht.eq_none (hempty [])] at hv
        cases hv
    | branch m =>
      refine Triple.inspect_at (fun _ herr => ⟨rfl, .inl (.inr (.inl (check_error herr)))⟩) ?_
      intro _ _
      refine Triple.inspect_known none (fun _ _ => rfl) ?_
      refine Triple.inspect (fun _ _ hs _ => ⟨hs, .inr ?_⟩) fun _ _ h _ => nomatch h.2
      exact loadValueAt_of_dirTarget hs₁ ht hhonest htarget

/-! ## The file a call leaves -/

/-- The transaction has a value at the path, and otherwise what it had before. -/
def Wrote (e : Env) (n : Nat) (T : FsTree) (p : List Str) (x : Value) (s : TxState) : Prop :=
  ∃ T', Represents e n s T' ∧ StoredAt T T' p x

omit [LawfulExternals] in
theorem wrote_unindexed : Unindexed (Wrote e n T path.names x) := by
  rintro _ index ⟨T', hT', hstored⟩
  exact ⟨T', hT'.setIndex index, hstored⟩

omit [LawfulExternals] in
theorem Edited.wrote {y : Value} (hfile : T path.names = some ⟨k, some y⟩) (h : Edited e n T path.names k x s s') :
    Wrote e n T path.names x s' := ⟨_, h.represents, Layout.storedAt_setLeaf hfile⟩

theorem Wrote.loadValueAt (h : Wrote e n T path.names x s) : loadValueAt e s path = .ok (some x) := by
  obtain ⟨T', hT', hstored⟩ := h
  exact hT'.loadValueAt_iff.2 hstored.leaf

/-- Storing a value at a path, inside a bracket or not. -/
theorem storeValueAt_stores (hdist : Distinct e n) (h : Represents e n s T) (hx : Storable x) :
    Triple e n (· = s) (storeValueAt indexes path x) (fun _ => Wrote e n T path.names x)
      (fun _ s' => indexes = [] → s' = s ∧ Unstorable e T path) := by
  obtain ⟨⟨v, hs, ht⟩, hvalid⟩ := h
  unfold storeValueAt
  split
  · exact Triple.fail fun _ hs' _ => ⟨hs', .inl ‹_›⟩
  · by_cases hnone : indexes = []
    · subst hnone
      refine (storeBlobInto_effect hdist ht hvalid hx hs).consequence (fun _ h => h) (fun _ _ h => h) ?_
      intro _ _ hrefused _
      exact hrefused
    · refine (reindexAround_spec hs (fun _ => wrote_unindexed) fun s₁ hs₁ => ?_).consequence (fun _ h => h)
        (fun _ _ h => h) fun _ _ _ h => absurd h hnone
      exact (storeBlobInto_effect hdist ht hvalid hx hs₁.sees).consequence (fun _ h => h) (fun _ _ h => h)
        fun _ _ h => h.1

/-- Setting a scalar through a cursor. Without indexes it fails only where the cursor cannot be read or
the value cannot be stored, and what it edits is what the cursor reads. -/
theorem putScalar_stores (hdist : Distinct e n) (h : Represents e n s T) (hc : c.Opened s T)
    (hsize : Storable ((T.valueAt c.path.names).apply (.putScalar vpath scalar))) :
    Triple e n (· = s) (c.putScalar indexes vpath scalar)
      (fun _ s' => Wrote e n T c.path.names ((T.valueAt c.path.names).apply (.putScalar vpath scalar)) s' ∧
        (indexes = [] → ∃ y, c.value e s = .ok y))
      (fun _ s' => indexes = [] → s' = s ∧ (e.principal ≠ .unrestricted ∨ Unstorable e T c.path ∨
        ∃ err, c.value e s = .error err)) := by
  obtain ⟨⟨v, hs, ht⟩, hvalid⟩ := id h
  have hinto : ∀ s₁, Ready (.base e) n s.drawn v s s₁ →
      Triple e n (· = s₁) (putScalarInto c.path (some (c.akey, c.epoch)) vpath scalar)
        (fun _ s' => Wrote e n T c.path.names ((T.valueAt c.path.names).apply (.putScalar vpath scalar)) s' ∧
          ∃ o, loadValueAt e s₁ c.path = .ok o)
        (Refused s₁ (e.principal ≠ .unrestricted ∨ Unstorable e T c.path ∨
          ∃ err, loadValueAt e s₁ c.path = .error err)) := by
    intro s₁ hs₁
    have hhonest := hc.honest hs₁.epoch
    have h₁ : Represents e n s₁ T := ⟨⟨v, hs₁.sees.drawn ▸ hs₁.sees, ht⟩, hvalid⟩
    rcases T.file_or_noFile c.path.names with ⟨k, x, hfile⟩ | hno
    · rw [FsTree.valueAt_file hfile] at hsize ⊢
      refine (putScalarInto_edits ht hvalid hs₁.sees hfile hhonest hsize).consequence (fun _ h => h) ?_
        fun _ _ h => ⟨h.1, .inl h.2⟩
      intro _ s' hs'
      exact ⟨hs'.wrote hfile, some x, h₁.loadValueAt_iff.2 ⟨k, hfile⟩⟩
    · rw [FsTree.valueAt_noFile hno] at hsize ⊢
      refine (putScalarInto_creates hdist ht hvalid hs₁.sees hno hhonest hsize).consequence (fun _ h => h) ?_
        fun _ _ h => ⟨h.1, .inr h.2⟩
      rintro _ s' ⟨hload, hstored⟩
      exact ⟨hstored, none, hload⟩
  by_cases hnone : indexes = []
  · subst hnone
    refine (hinto s ⟨hs, fun _ _ => rfl, rfl⟩).consequence (fun _ h => h) ?_ ?_
    · rintro _ s' ⟨hstored, o, ho⟩
      refine ⟨hstored, fun _ => ⟨o.getD .default, ?_⟩⟩
      rw [Cursor.value, MutCursor.value, ho]
      rfl
    · rintro _ s' ⟨hsame, hreason⟩ _
      refine ⟨hsame, hreason.imp id (Or.imp id ?_)⟩
      rintro ⟨err, herr⟩
      refine ⟨err, ?_⟩
      rw [Cursor.value, MutCursor.value, herr]
      rfl
  · refine (reindexAround_spec hs (fun _ => wrote_unindexed) fun s₁ hs₁ => ?_).consequence (fun _ h => h)
      (fun _ _ h => ⟨h, fun h => absurd h hnone⟩) fun _ _ _ h => absurd h hnone
    exact (hinto s₁ hs₁).consequence (fun _ h => h) (fun _ _ h => h.1) fun _ _ h => h.1

/-- Editing the value that a cursor reads, and storing it. -/
theorem edit_stores (edit : Value → Value) (hdist : Distinct e n) (h : Represents e n s T)
    (hsize : Storable (edit (T.valueAt c.path.names))) :
    Triple e n (· = s) (do
      let value ← inspect (Cursor.value · · c)
      storeValueAt indexes c.path (edit value))
      (fun _ s' => Wrote e n T c.path.names (edit (T.valueAt c.path.names)) s' ∧ ∃ y, c.value e s = .ok y)
      (fun _ s' => indexes = [] → s' = s ∧ (Unstorable e T c.path ∨ ∃ err, c.value e s = .error err)) := by
  refine Triple.inspect_at (fun err herr _ => ⟨rfl, .inr ⟨err, herr⟩⟩) ?_
  intro y hy
  cases h.value_eq hy
  refine (storeValueAt_stores hdist h hsize).consequence (fun _ h => h) ?_ ?_
  · exact fun _ _ hs' => ⟨hs', _, hy⟩
  · exact fun _ _ hs' hnone => ⟨(hs' hnone).1, .inl (hs' hnone).2⟩

theorem remove_stores (hdist : Distinct e n) (h : Represents e n s T)
    (hsize : Storable ((T.valueAt c.path.names).apply (.remove vpath))) :
    Triple e n (· = s) (c.remove indexes vpath)
      (fun removed s' => removed = ((T.valueAt c.path.names).removeValue vpath).2 ∧
        Wrote e n T c.path.names ((T.valueAt c.path.names).apply (.remove vpath)) s' ∧ ∃ y, c.value e s = .ok y)
      (fun _ s' => indexes = [] → s' = s ∧ (Unstorable e T c.path ∨ ∃ err, c.value e s = .error err)) := by
  unfold Cursor.remove
  refine Triple.inspect_at (fun err herr _ => ⟨rfl, .inr ⟨err, herr⟩⟩) ?_
  intro y hy
  cases h.value_eq hy
  refine Triple.bind (R := fun _ s' =>
    Wrote e n T c.path.names ((T.valueAt c.path.names).apply (.remove vpath)) s') ?_ ?_
  · refine (storeValueAt_stores hdist h hsize).consequence (fun _ h => h) (fun _ _ h => h) ?_
    exact fun _ _ hs' hnone => ⟨(hs' hnone).1, .inl (hs' hnone).2⟩
  · exact fun _ => Triple.pure fun _ hs' => ⟨rfl, hs', _, hy⟩

/-- Where a file is there, storing without indexes rewrites its entry. -/
theorem remove_over (hdist : Distinct e n) (h : Represents e n s T) (hfile : T c.path.names = some ⟨k, some x⟩) :
    Triple e n (· = s) (c.remove [] vpath)
      (fun _ s' => s' = s.putEntry e k (.file (Codec.encode (x.apply (.remove vpath))))) (fun _ _ => True) := by
  obtain ⟨⟨v, hs, ht⟩, hvalid⟩ := id h
  unfold Cursor.remove
  refine Triple.inspect_known x (fun _ hs => hs ▸ h.value_file hfile) ?_
  refine Triple.bind (R := fun _ s' => s' = s.putEntry e k (.file (Codec.encode (x.apply (.remove vpath))))) ?_
    fun _ => Triple.pure fun _ h => h
  unfold storeValueAt
  split
  · exact Triple.fail fun _ _ => trivial
  · exact (storeBlobInto_over hdist hs ht (Layout.mapLeaf_of_some hfile)).consequence (fun _ h => h) (fun _ _ h => h)
      fun _ _ _ => trivial

/-! ## What the calls promise -/

/-- A file can be stored at the path: it is not the root, and no file is on the way to it. -/
def FsTree.Writable (T : FsTree) (path : APath) : Prop := path.isRoot = false ∧ ¬ T.FileOn path.names.dropLast

omit [LawfulExternals] in
theorem FsTree.Writable.storable (h : T.Writable path) (hp : e.principal = .unrestricted) : ¬ Unstorable e T path := by
  rintro (hroot | hbarred)
  · cases h.1.symm.trans hroot
  · exact h.2 (hbarred.fileOn hp)

omit [LawfulExternals] in
theorem Wrote.writable (h : Wrote e n T path.names x s') (hroot : path.isRoot = false) : T.Writable path := by
  refine ⟨hroot, ?_⟩
  rintro ⟨q, k, y, hpre, hq⟩
  obtain ⟨T', ⟨⟨v', hs', ht'⟩, -⟩, hstored⟩ := h
  have hne : path.names ≠ [] := fun hnil => by
    rw [APath.isRoot, hnil] at hroot
    cases hroot
  have hlen : q.length < path.names.length := by
    have := hpre.length_le
    rw [List.length_dropLast] at this
    have := List.length_pos_iff.2 hne
    omega
  obtain ⟨r, hr⟩ := hpre.trans (List.dropLast_prefix path.names)
  have hkept := hstored.kept (fun hle => absurd hle.length_le (by omega)) hq
  obtain ⟨j, hj⟩ := hstored.leaf
  have hrnil : r ≠ [] := by
    rintro rfl
    rw [List.append_nil] at hr
    rw [hr] at hlen
    omega
  have hnone := ht'.toLays.leaf_append (Layout.mapLeaf_of_some hkept) hrnil
  rw [hr, FsTree.blobs, Layout.mapLeaf_of_some hj] at hnone
  cases hnone

namespace Cursor

/-- What the cursor reads at a path of its value. -/
def scalarAt (e : Env) (s : TxState) (c : Cursor) (vpath : VPath) : AdbResult (Option Scalar) :=
  MutCursor.scalarAt (loadValueAt e s c.path) vpath

def kindAt (e : Env) (s : TxState) (c : Cursor) (vpath : VPath) : AdbResult (Option NodeKind) :=
  MutCursor.kindAt (loadValueAt e s c.path) vpath

/-- A call that returns has done what it says, and one that fails leaves the file as it was. -/
def Kept {α : Type} (e : Env) (s : TxState) (c : Cursor) (done : α → TxState → Prop) :
    Except AdbError α × TxState → Prop
  | (.ok a, s') => done a s'
  | (.error _, s') => loadValueAt e s' c.path = loadValueAt e s c.path

variable (e s c indexes vpath)

/-- A scalar that was put is read. -/
def KeepsScalar (scalar : Scalar) : Prop :=
  c.Kept e s (fun _ s' => c.scalarAt e s' vpath = .ok (some scalar)) ((c.putScalar indexes vpath scalar).run e s)

/-- A container that was ensured is there. -/
def KeepsContainer (isList : Bool) : Prop :=
  c.Kept e s (fun _ s' => c.kindAt e s' vpath = .ok (some (if isList then .list else .object)))
    ((c.ensureContainer indexes vpath isList).run e s)

/-- A removal that found nothing did nothing. -/
def KeepsAbsent : Prop :=
  c.Kept e s (fun removed s' => removed = false → s' = s) ((c.remove indexes vpath).run e s)

end Cursor

/-! ## When the promises are kept -/

namespace Cursor

variable (e s c)

/-- If the cursor can be read and its file written, the path fits the value. -/
def Fits (T : FsTree) (vpath : VPath) : Prop :=
  ∀ x, c.value e s = .ok x → T.Writable c.path → x.fits vpath.segments = true

/-- If the cursor can be read and its file written, then a path that leads nowhere is one of a file that
is there, and writing its entry once more changes nothing. -/
def Settled (T : FsTree) (vpath : VPath) : Prop :=
  ∀ x, c.value e s = .ok x → T.Writable c.path → x.descend vpath.segments = none →
    ∃ k, T c.path.names = some ⟨k, some x⟩ ∧ s.putEntry e k (.file (Codec.encode x)) = s

end Cursor

theorem Wrote.scalarAt (h : Wrote e n T c.path.names x s') : c.scalarAt e s' vpath = .ok (x.scalarAt vpath) := by
  rw [Cursor.scalarAt, MutCursor.scalarAt, h.loadValueAt]
  rfl

theorem Wrote.kindAt (h : Wrote e n T c.path.names x s') : c.kindAt e s' vpath = .ok (x.kindAt vpath) := by
  rw [Cursor.kindAt, MutCursor.kindAt, h.loadValueAt]
  rfl

section Promises

variable (h : Represents e n s T) (hc : c.Opened s T)
include h hc

/-- What the promise of a call comes to, without indexes and for an unrestricted principal: the call
returns if the cursor can be read and its file written, and then has done its edit. -/
theorem kept_iff {α : Type} {m : TxM α} {done : α → TxState → Prop} {fine : Value → Prop} (op : WriterOp)
    (hp : e.principal = .unrestricted) (hn : (m.run e s).2.drawn ≤ n)
    (hrun : Triple e n (· = s) m
      (fun a s' => Wrote e n T c.path.names ((T.valueAt c.path.names).apply op) s' ∧ (∃ y, c.value e s = .ok y) ∧
        (done a s' ↔ fine (T.valueAt c.path.names)))
      (fun _ s' => s' = s ∧ (e.principal ≠ .unrestricted ∨ Unstorable e T c.path ∨ ∃ err, c.value e s = .error err))) :
    c.Kept e s done (m.run e s) ↔ ∀ x, c.value e s = .ok x → T.Writable c.path → fine x := by
  have hout := hrun s rfl hn
  generalize m.run e s = out at hout
  obtain ⟨o, s'⟩ := out
  cases o with
  | error err =>
    obtain ⟨rfl, hreason⟩ := hout
    refine ⟨fun _ x hx hwritable => ?_, fun _ => rfl⟩
    rcases hreason with hne | hun | ⟨err, herr⟩
    · exact absurd hp hne
    · exact absurd hun (hwritable.storable hp)
    · cases herr.symm.trans hx
  | ok a =>
    obtain ⟨hwrote, ⟨y, hy⟩, hiff⟩ := hout
    have hwritable := hwrote.writable hc.notRoot
    constructor
    · intro hdone x hx _
      rw [h.value_eq hx]
      exact hiff.1 hdone
    · intro hfine
      have hat := hfine y hy hwritable
      rw [h.value_eq hy] at hat
      exact hiff.2 hat

variable (hdist : Distinct e n)
include hdist

theorem keepsScalar_iff (hp : e.principal = .unrestricted)
    (hsize : Storable ((T.valueAt c.path.names).apply (.putScalar vpath scalar)))
    (hn : ((c.putScalar [] vpath scalar).run e s).2.drawn ≤ n) :
    c.KeepsScalar e s [] vpath scalar ↔ c.Fits e s T vpath := by
  refine kept_iff h hc (.putScalar vpath scalar) hp hn ?_
  refine (putScalar_stores hdist h hc hsize).consequence (fun _ h => h) ?_ fun _ _ h => h rfl
  rintro _ s' ⟨hwrote, hread⟩
  refine ⟨hwrote, hread rfl, ?_⟩
  rw [hwrote.scalarAt, Except.ok.injEq]
  exact Value.scalarAt_putScalar

theorem keepsContainer_iff {isList : Bool} (hp : e.principal = .unrestricted)
    (hsize : Storable ((T.valueAt c.path.names).apply (.ensureContainer vpath isList)))
    (hn : ((c.ensureContainer [] vpath isList).run e s).2.drawn ≤ n) :
    c.KeepsContainer e s [] vpath isList ↔ c.Fits e s T vpath := by
  refine kept_iff h hc (.ensureContainer vpath isList) hp hn ?_
  rw [Cursor.ensureContainer_eq]
  refine (edit_stores (·.apply (.ensureContainer vpath isList)) hdist h hsize).consequence (fun _ h => h) ?_
    fun _ _ h => ⟨(h rfl).1, .inr (h rfl).2⟩
  rintro _ s' ⟨hwrote, hread⟩
  refine ⟨hwrote, hread, ?_⟩
  rw [hwrote.kindAt, Except.ok.injEq]
  exact Value.kindAt_ensureContainer

theorem keepsAbsent_iff (hp : e.principal = .unrestricted)
    (hsize : Storable ((T.valueAt c.path.names).apply (.remove vpath)))
    (hn : ((c.remove [] vpath).run e s).2.drawn ≤ n) :
    c.KeepsAbsent e s [] vpath ↔ c.Settled e s T vpath := by
  refine kept_iff h hc (.remove vpath) hp hn ?_
  have hover : Triple e n (· = s) (c.remove [] vpath) (fun _ s' => ∀ k x, T c.path.names = some ⟨k, some x⟩ →
      s' = s.putEntry e k (.file (Codec.encode (x.apply (.remove vpath))))) (fun _ _ => True) := by
    rcases T.file_or_noFile c.path.names with ⟨k, x, hfile⟩ | hno
    · refine (remove_over hdist h hfile).post ?_
      rintro _ s' hs' j y hy
      cases hfile.symm.trans hy
      exact hs'
    · exact (remove_stores hdist h hsize).consequence (fun _ h => h)
        (fun _ _ _ j y hy => absurd hy (hno j y)) fun _ _ _ => trivial
  refine ((remove_stores hdist h hsize).and hover).consequence (fun _ h => h) ?_
    fun _ _ h => ⟨(h rfl).1, .inr (h rfl).2⟩
  rintro removed s' ⟨⟨rfl, hwrote, hread⟩, hsame⟩
  refine ⟨hwrote, hread, ?_⟩
  rw [Value.removed_eq, Option.isSome_eq_false_iff, Option.isNone_iff_eq_none]
  refine forall_congr' fun hnone => ?_
  rw [Value.apply_remove_absent hnone] at hwrote
  constructor
  · rintro rfl
    obtain ⟨k, hfile⟩ := h.loadValueAt_iff.1 hwrote.loadValueAt
    refine ⟨k, hfile, ?_⟩
    have hput := hsame k _ hfile
    rw [Value.apply_remove_absent hnone] at hput
    exact hput.symm
  · rintro ⟨k, hfile, hput⟩
    have hstate := hsame k _ hfile
    rw [Value.apply_remove_absent hnone, hput] at hstate
    exact hstate

end Promises

end

/-- The state of a small table with one file, `a`. -/
def oneFile (x : @Value Reference.externals) : TxState :=
  letI := Reference.externals
  ((Call.prog [] (.storeValue (pathOf ["a"]) x)).run countingEnv .empty).2

end ArborDb
