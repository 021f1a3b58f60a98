import ArborDb.Txn.FileSystem
import ArborDb.Txn.Patch

/-!
# Edits through a cursor

A cursor writes its file in three ways: a leaf is overwritten in place, the value is decoded, edited
and encoded again, or a file that has vanished is created anew. On a file that is there all of them
do to its value what the call does to a value in memory (`Cursor.edits`).
-/

namespace ArborDb

open Prog (Triple)
open Layout (Holds Node StoredAt mapLeaf setLeaf)

variable [Externals]

/-! ## Overwriting a blob -/

section Patch

variable [LawfulExternals] {x : Value} {vpath : VPath} {s : Scalar} {path : APath}

/-- Where a leaf is overwritten in place, the blob is that of the edited value. -/
theorem patchScalar_encode (hx : Storable x) (vpath : VPath) (s : Scalar) :
    ∃ patched, patchScalar (.file (Codec.encode x)) vpath s = .ok patched ∧
    ∀ b, patched = some b → b = Codec.encode (x.apply (.putScalar vpath s)) := by
  obtain ⟨root, hnew, ⟨old, off, hw, hspan, hpatch⟩ | ⟨-, hspan⟩⟩ :=
    Codec.leafScalarSpan_encode hx.1 hx.2 vpath
  · by_cases hwidth : s.encode.length = old.encode.length
    · refine ⟨_, by simp [patchScalar, hnew, hspan, hwidth]; rfl, ?_⟩
      intro b hb
      cases hb
      have hset : Value.setIn x vpath.segments (.leaf s) = some (x.apply (.putScalar vpath s)) :=
        Value.setIn_of_fits (Value.fits_of_descend hw)
      rw [hpatch s _ hset hwidth, List.append_assoc]
    · refine ⟨none, ?_, fun _ h => (by cases h)⟩
      simp [patchScalar, hnew, hspan, hwidth]
  · refine ⟨none, ?_, fun _ h => (by cases h)⟩
    simp [patchScalar, hnew, hspan]

theorem rewriteScalar_encode (hx : Storable x) :
    rewriteScalar path (.file (Codec.encode x)) vpath s = .ok (Codec.encode (x.apply (.putScalar vpath s))) := by
  simp only [rewriteScalar, decode_storable hx, Except.ok_bind]
  rfl

end Patch

/-! ## The file at a path -/

section File

variable {e : Env} {P : Policy e} {n d : Nat} {v : View} {s s₀ s₁ s' : TxState} {T : FsTree} {path : APath} {k : AKey}
  {x y : Value}

/-- The value a cursor edits: the file's, or a default one where there is no file. -/
def FsTree.valueAt (T : FsTree) (p : List Str) : Value :=
  match T p with
  | some ⟨_, some x⟩ => x
  | _ => .default

/-- No file is at the path: nothing, or a directory. -/
def FsTree.NoFile (T : FsTree) (p : List Str) : Prop := ∀ k x, T p ≠ some ⟨k, some x⟩

theorem FsTree.valueAt_file (h : T path.names = some ⟨k, some x⟩) : T.valueAt path.names = x := by
  rw [valueAt, h]

theorem FsTree.valueAt_noFile (h : T.NoFile path.names) : T.valueAt path.names = .default := by
  rw [valueAt]
  split
  · exact absurd ‹_› (h _ _)
  · rfl

theorem FsTree.file_or_noFile (T : FsTree) (p : List Str) : (∃ k x, T p = some ⟨k, some x⟩) ∨ T.NoFile p := by
  rcases hT : T p with _ | ⟨k, _ | x⟩
  · exact .inr fun k x h => by cases hT.symm.trans h
  · exact .inr fun k x h => by cases hT.symm.trans h
  · exact .inl ⟨k, x, rfl⟩

variable [LawfulExternals]

/-- What a cursor loads is the file the tree has at its path. -/
theorem Represents.loadValueAt_iff (h : Represents e n s T) :
    loadValueAt e s path = .ok (some x) ↔ ∃ k, T path.names = some ⟨k, some x⟩ := by
  obtain ⟨⟨v, hs, ht⟩, hvalid⟩ := h
  have hwalk : resolveBuffered s path = Layout.walk v .root path.names := hs.resolveBuffered_walk ..
  unfold loadValueAt
  rw [hwalk]
  constructor
  · intro h
    cases hk : Layout.walk v .root path.names with
    | none =>
      rw [hk] at h
      cases h
    | some k =>
      rw [hk] at h
      obtain ⟨r, hr, h⟩ := Except.bind_eq_ok.1 h
      match r, h with
      | some (.file b), h =>
        obtain ⟨y, hy, h⟩ := Except.bind_eq_ok.1 h
        cases Except.ok.inj h
        have hv := hs.readVerified_file hr
        have hat := holds_at (p := path.names) ht
        rw [hk, Option.bind_some, hv] at hat
        obtain ⟨a, ha, hva⟩ := Option.bind_eq_some_iff.1 hat.symm
        obtain ⟨⟨j, _ | z⟩, hT, rfl⟩ := Layout.mapLeaf_eq_some ha
        · obtain ⟨links, hlinks, -⟩ := holds_dir ht hT
          cases hlinks.symm.trans hva
        · cases (holds_file ht hT).symm.trans hva
          rw [decode_storable (hvalid hT)] at hy
          cases hy
          exact ⟨j, hT⟩
  · rintro ⟨k, hT⟩
    have hv := holds_file ht hT
    have hread : readVerified e s k = .ok (some (.file (Codec.encode x))) := by
      rw [hs.readVerified (by simp [hv]), hv]
    rw [holds_walk ht hT]
    simp only [hread, Except.ok_bind, decode_storable (hvalid hT)]
    rfl

theorem Represents.value_eq (h : Represents e n s T) {c : Cursor} (hx : c.value e s = .ok x) :
    x = T.valueAt c.path.names := by
  obtain ⟨o, ho, hret⟩ := Except.bind_eq_ok.1 hx
  cases Except.ok.inj hret
  cases o with
  | some y =>
    obtain ⟨k, hT⟩ := h.loadValueAt_iff.1 ho
    exact (FsTree.valueAt_file hT).symm
  | none =>
    refine (FsTree.valueAt_noFile fun k y hT => ?_).symm
    have hload := h.loadValueAt_iff.2 ⟨k, hT⟩
    cases ho.symm.trans hload

theorem Represents.value_file (h : Represents e n s T) {c : Cursor} (hT : T c.path.names = some ⟨k, some x⟩) :
    c.value e s = .ok x := by
  rw [Cursor.value, MutCursor.value, h.loadValueAt_iff.2 ⟨k, hT⟩]
  rfl

end File

/-! ## Writing over a file -/

section Over

variable {e : Env} {P : Policy e} {n d : Nat} {v : View} {s s₀ s₁ s' : TxState} {t : ATree} {T : FsTree} {path : APath}
  {k : AKey} {x y : Value}

omit [Externals] in
/-- Storing over a file writes its entry and nothing else. -/
theorem storeBlobInto_over {b b' : Bytes} (hdist : Distinct e n) (hs₀ : Sees P n d v s₀) (ht : Holds .root v t)
    (hfile : t path.names = some ⟨k, some b⟩) :
    Triple e n (· = s₀) (storeBlobInto path b') (fun _ s => s = s₀.putEntry e k (.file b')) (fun _ s => s = s₀) := by
  unfold storeBlobInto
  refine Triple.inspect_at (fun _ _ => rfl) ?_
  rintro ⟨pp, name⟩ hsplit
  rw [splitLastOrPanic_eq hsplit] at hfile
  refine Triple.bind ((ensureDir_spec hdist hs₀ ht).consequence (fun _ h => h) (fun _ _ h => h)
    fun _ _ h => h.1) ?_
  intro parent
  rintro s (⟨hs, hp⟩ | ⟨d₁, v₁, t₁, hd₁, hs, ht₁, hmade, hp, hempty⟩)
  · refine Triple.inspect_at (E := fun _ s => s = s₀) (fun _ _ => rfl) ?_ s hs
    intro _ _
    refine Triple.inspect_known _ (fun _ hs => hs ▸ hs₀.child_tree ht hp name) ?_
    rw [hfile]
    refine Triple.inspect_known _ (fun _ hs => hs ▸ hs₀.kind_tree ht hfile) ?_
    rw [if_pos (by rfl)]
    refine Triple.inspect_at (fun _ _ => rfl) ?_
    intro _ _
    exact Triple.modify fun _ hs _ => by rw [hs]
  · -- A directory on the way to a file was not made just now.
    have hnone := hempty [name] (by simp)
    rw [hmade.kept hfile] at hnone
    cases hnone

/-- The state has other data in the file at the path, under the same key and with the same links. -/
structure Edited (e : Env) (n : Nat) (T : FsTree) (p : List Str) (k : AKey) (x : Value) (s₀ s : TxState) : Prop where
  represents : Represents e n s (setLeaf T p k x)
  epoch : s.buffer.epoch = s₀.buffer.epoch

theorem Edited.unindexed : Unindexed (Edited e n T path.names k x s₀) :=
  fun _ index h => ⟨h.represents.setIndex index, h.epoch⟩

theorem blobs_setLeaf {p : List Str} : FsTree.blobs (setLeaf T p k x) = setLeaf T.blobs p k (Codec.encode x) := by
  funext q
  unfold FsTree.blobs mapLeaf setLeaf
  split <;> rfl

theorem FsTree.Valid.setLeaf {p : List Str} (h : T.Valid) (hx : Storable x) :
    FsTree.Valid (Layout.setLeaf T p k x) := by
  intro q j y hq
  unfold Layout.setLeaf at hq
  split at hq
  · cases hq
    exact hx
  · exact h hq

theorem Edited.of_sees (ht : Holds .root v T.blobs) (hvalid : T.Valid) (hfile : T path.names = some ⟨k, some y⟩)
    (hx : Storable x) (hs : Sees (.base e) n d (Function.update v k (some (.file (Codec.encode x)))) s)
    (hepoch : s.buffer.epoch = s₀.buffer.epoch) : Edited e n T path.names k x s₀ s := by
  refine ⟨⟨⟨_, hs.drawn ▸ hs, ?_⟩, hvalid.setLeaf hx⟩, hepoch⟩
  rw [blobs_setLeaf]
  exact ht.setLeaf (Layout.mapLeaf_of_some hfile)

theorem Edited.refl (h : Represents e n s T) (hfile : T path.names = some ⟨k, some x⟩) :
    Edited e n T path.names k x s s := by
  refine ⟨?_, rfl⟩
  have hsame : setLeaf T path.names k x = T := by
    funext q
    unfold setLeaf
    split
    · rename_i hq
      rw [hq, hfile]
    · rfl
  rw [hsame]
  exact h

theorem Edited.trans (h : Edited e n T path.names k x s₀ s)
    (h' : Edited e n (setLeaf T path.names k x) path.names k y s s') : Edited e n T path.names k y s₀ s' := by
  refine ⟨?_, h'.epoch.trans h.epoch⟩
  have hsame : setLeaf (setLeaf T path.names k x) path.names k y = setLeaf T path.names k y := by
    funext q
    unfold setLeaf
    split <;> rfl
  rw [← hsame]
  exact h'.represents

section Calls

variable [LawfulExternals] {c : Cursor} {indexes : List IndexEntry} {vpath : VPath} {scalar : Scalar}
  {hint : Option (AKey × UInt64)}

omit [LawfulExternals] in
/-- Storing a value over a file. -/
theorem storeValueInto_edits (hdist : Distinct e n) (ht : Holds .root v T.blobs) (hvalid : T.Valid)
    (hs₁ : Sees (.base e) n d v s₁) (hfile : T path.names = some ⟨k, some y⟩) (hx : Storable x) :
    Triple e n (· = s₁) (storeValueInto path x) (fun _ => Edited e n T path.names k x s₁) (fun _ s => s = s₁) := by
  have hblob : T.blobs path.names = some ⟨k, some (Codec.encode y)⟩ := Layout.mapLeaf_of_some hfile
  have hv := holds_file ht hfile
  refine (storeBlobInto_over hdist hs₁ ht hblob).post ?_
  rintro _ s rfl
  exact .of_sees ht hvalid hfile hx (hs₁.putEntry _ (hs₁.used (by simp [hv])) (hs₁.dirs_none (by simp [hv]))) rfl

omit [Externals] [LawfulExternals] in
theorem readVerified_error {err : AdbError} (h : readVerified e s k = .error err) : e.principal ≠ .unrestricted := by
  intro hp
  unfold readVerified readTable verifyIntegrity at h
  rw [hp] at h
  split at h
  · cases h
  · split at h <;> cases h

omit [Externals] [LawfulExternals] in
/-- Only a restricted principal can fail to find a target. -/
theorem resolveTarget_error (hs : Sees P n d v s) {err : AdbError}
    (h : resolveTarget e s path hint = .error err) : e.principal ≠ .unrestricted := by
  have hread : resolveAndRead e s path = .error err → e.principal ≠ .unrestricted := by
    intro h
    rcases Except.bind_eq_error.1 h with hr | ⟨r, -, h⟩
    · exact hs.resolve_error hr
    · cases r with
      | none => cases h
      | some j =>
        rcases Except.bind_eq_error.1 h with hr | ⟨r, -, h⟩
        · exact readVerified_error hr
        · cases h
  unfold resolveTarget at h
  split at h
  · split at h
    · split at h
      · rcases Except.bind_eq_error.1 h with hr | ⟨r, -, h⟩
        · exact readVerified_error hr
        · cases r with
          | none => exact hread h
          | some entry => cases h
      · exact hread h
    · exact hread h
  · exact hread h

omit [Externals] [LawfulExternals] in
/-- A scalar write that finds no target finds nothing at the key its path resolves to. -/
theorem resolveTarget_none {path : APath} (h : resolveTarget e s path hint = .ok none) :
    resolve e s path = .ok none ∨ ∃ k, resolve e s path = .ok (some k) ∧ readVerified e s k = .ok none := by
  have hread : resolveAndRead e s path = .ok none →
      resolve e s path = .ok none ∨ ∃ k, resolve e s path = .ok (some k) ∧ readVerified e s k = .ok none := by
    intro h
    obtain ⟨r, hr, h⟩ := Except.bind_eq_ok.1 h
    cases r with
    | none => exact .inl hr
    | some k =>
      obtain ⟨o, ho, h⟩ := Except.bind_eq_ok.1 h
      cases o with
      | none => exact .inr ⟨k, hr, ho⟩
      | some entry => cases h
  unfold resolveTarget at h
  split at h
  · split at h
    · split at h
      · obtain ⟨o, ho, h⟩ := Except.bind_eq_ok.1 h
        cases o with
        | none => exact hread h
        | some entry => cases h
      · exact hread h
    · exact hread h
  · exact hread h

omit [Externals] [LawfulExternals] in
/-- The key a scalar write edits is that of the node at its path. -/
theorem resolveTarget_some (hs : Sees P n d v s) (ht : Holds .root v t) (hhonest : Honest s t path hint) {j : AKey}
    {entry : Entry} (h : resolveTarget e s path hint = .ok (some (j, entry))) :
    readVerified e s j = .ok (some entry) ∧ ((t path.names).map Node.key = some j ∨ ∀ q, t q = none) := by
  obtain ⟨hread, hhint | hr⟩ := resolveTarget_cases h
  · exact ⟨hread, .inl (hhonest j hhint)⟩
  · refine ⟨hread, ?_⟩
    rcases hs.resolve_cases ht hr with ⟨a, ha, hkey⟩ | hempty
    · exact .inl (by rw [ha, Option.map_some, hkey])
    · exact .inr hempty

/-- Setting a scalar in a file that is there. -/
theorem putScalarInto_edits (ht : Holds .root v T.blobs) (hvalid : T.Valid)
    (hs₁ : Sees (.base e) n d v s₁) (hfile : T path.names = some ⟨k, some x⟩)
    (hhonest : Honest s₁ T.blobs path hint) (hstorable : Storable (x.apply (.putScalar vpath scalar))) :
    Triple e n (· = s₁) (putScalarInto path hint vpath scalar)
      (fun _ => Edited e n T path.names k (x.apply (.putScalar vpath scalar)) s₁)
      (Refused s₁ (e.principal ≠ .unrestricted)) := by
  have hblob : T.blobs path.names = some ⟨k, some (Codec.encode x)⟩ := Layout.mapLeaf_of_some hfile
  have hv := holds_file ht hfile
  have hread : readVerified e s₁ k = .ok (some (.file (Codec.encode x))) := by
    rw [hs₁.readVerified (by simp [hv]), hv]
  unfold putScalarInto
  refine Triple.inspect_at (fun _ herr => ⟨rfl, resolveTarget_error hs₁ herr⟩) ?_
  intro target htarget
  cases target with
  | none =>
    exfalso
    rcases resolveTarget_none htarget with hr | ⟨j, hr, hnone⟩
    · cases hblob.symm.trans (hs₁.resolve_none ht hr)
    · rcases hs₁.resolve_cases ht hr with ⟨a, ha, hkey⟩ | hempty
      · cases hblob.symm.trans ha
        change k = j at hkey
        subst hkey
        cases hread.symm.trans hnone
      · cases hblob.symm.trans (hempty path.names)
  | some target =>
    obtain ⟨j, entry⟩ := target
    obtain ⟨hentry, hkey | hempty⟩ := resolveTarget_some hs₁ ht hhonest htarget
    · rw [hblob] at hkey
      change some k = some j at hkey
      cases hkey
      cases hread.symm.trans hentry
      have hput : Triple e n (· = s₁) (putFileEdit k (Codec.encode (x.apply (.putScalar vpath scalar))))
          (fun _ => Edited e n T path.names k (x.apply (.putScalar vpath scalar)) s₁)
          (Refused s₁ (e.principal ≠ .unrestricted)) := by
        have hepoch : Triple e n (· = s₁) (putFileEdit k (Codec.encode (x.apply (.putScalar vpath scalar))))
            (fun _ s => s.buffer.epoch = s₁.buffer.epoch) (Refused s₁ (e.principal ≠ .unrestricted)) := by
          apply Triple.modify
          rintro s rfl _
          split <;> rfl
        refine (((putFileEdit_spec hv).pre fun _ hs => hs ▸ hs₁).and hepoch).post ?_
        rintro _ s ⟨hs, heq⟩
        exact .of_sees ht hvalid hfile hstorable hs heq
      refine Triple.inspect_at (fun _ herr => ⟨rfl, check_error herr⟩) ?_
      intro _ _
      obtain ⟨patched, hpatch, hpatched⟩ := patchScalar_encode (hvalid hfile) vpath scalar
      refine Triple.inspect_known patched (fun _ _ => hpatch) ?_
      cases patched with
      | some b =>
        rw [hpatched b rfl]
        exact hput
      | none => exact Triple.inspect_known _ (fun _ _ => rewriteScalar_encode (hvalid hfile)) hput
    · cases hblob.symm.trans (hempty path.names)

omit [LawfulExternals] in
/-- What a mutation does to the file at a path, its bracket keeps. -/
theorem reindexAround_edits {apply : TxM Unit} (hs : Sees (.base e) n s.drawn v s)
    (happly : ∀ s₁, Ready (.base e) n s.drawn v s s₁ →
      Triple e n (· = s₁) apply (fun _ => Edited e n T path.names k x s₁) (fun _ s => s = s₁)) :
    Triple e n (· = s) (reindexAround indexes [path] apply) (fun _ => Edited e n T path.names k x s)
      (fun _ s' => indexes = [] → s' = s) := by
  by_cases hnone : indexes = []
  · subst hnone
    refine (happly s ⟨hs, fun _ _ => rfl, rfl⟩).consequence (fun _ h => h) (fun _ _ h => h) ?_
    intro _ _ h _
    exact h
  · refine (reindexAround_spec hs (fun _ => Edited.unindexed) fun s₁ hs₁ => ?_).consequence (fun _ h => h)
      (fun _ _ h => h) fun _ _ _ h => absurd h hnone
    refine (happly s₁ hs₁).post ?_
    intro _ s' hs'
    exact ⟨hs'.represents, hs'.epoch.trans hs₁.epoch⟩

omit [LawfulExternals] in
theorem storeValueAt_edits (hdist : Distinct e n) (h : Represents e n s T)
    (hfile : T path.names = some ⟨k, some y⟩) (hx : Storable x) :
    Triple e n (· = s) (storeValueAt indexes path x) (fun _ => Edited e n T path.names k x s)
      (fun _ s' => indexes = [] → s' = s) := by
  obtain ⟨⟨v, hs, ht⟩, hvalid⟩ := h
  unfold storeValueAt
  split
  · exact Triple.fail fun _ hs' _ => hs'
  · exact reindexAround_edits hs fun s₁ hs₁ => storeValueInto_edits hdist ht hvalid hs₁.sees hfile hx

namespace Cursor

/-- A call through a cursor. -/
def call (c : Cursor) (indexes : List IndexEntry) : WriterOp → TxM Unit
  | .putScalar vpath scalar => c.putScalar indexes vpath scalar
  | .ensureContainer vpath isList => c.ensureContainer indexes vpath isList
  | .remove vpath => do
    let _ ← c.remove indexes vpath

omit [LawfulExternals] in
theorem ensureContainer_eq {isList : Bool} : c.ensureContainer indexes vpath isList = (do
    let value ← inspect (value · · c)
    storeValueAt indexes c.path (value.apply (.ensureContainer vpath isList))) := by
  unfold Cursor.ensureContainer
  congr
  funext value
  rw [Value.apply, Value.ensured, Value.hasContainer]
  rcases value.subtree vpath with _ | _ | _ | _ <;> cases isList <;> rfl

/-- A cursor over a path other than the root. As long as the count of structural changes is the one
it was opened at, its key is that of the node at its path. -/
structure Opened (c : Cursor) (s : TxState) (T : FsTree) : Prop where
  notRoot : c.path.isRoot = false
  node : c.epoch = s.buffer.epoch → (T c.path.names).map Node.key = some c.akey

omit [LawfulExternals] in
theorem Opened.honest (h : c.Opened s T) (hepoch : s₁.buffer.epoch = s.buffer.epoch) :
    Honest s₁ T.blobs c.path (some (c.akey, c.epoch)) := by
  intro key heq
  obtain ⟨rfl, hcount⟩ := Prod.mk.inj (Option.some.inj heq)
  have hnode := h.node (hcount.trans hepoch)
  unfold FsTree.blobs mapLeaf
  rw [Option.map_map]
  exact hnode

omit [LawfulExternals] in
/-- A cursor that was just opened. -/
theorem opened_fetchMut (h : Represents e n s T) (hroot : path.isRoot = false)
    (hfetch : fetchMut s path = .ok (some c)) : c.Opened s T := by
  obtain ⟨⟨v, hs, ht⟩, -⟩ := h
  have hne : path.names ≠ [] := fun hnil => by
    rw [APath.isRoot, hnil] at hroot
    cases hroot
  have hwalk : resolveBuffered s path = (T path.names).map Node.key := by
    rw [hs.resolveBuffered_tree ht hne]
    unfold FsTree.blobs mapLeaf
    rw [Option.map_map]
    rfl
  have hkey : ∀ {k : AKey} {kind : Option EntryKind}, resolveWithKind s path = some (k, kind) →
      resolveBuffered s path = some k := by
    intro k kind hk
    unfold resolveWithKind at hk
    split at hk
    · cases hk
    · rename_i hbuffered
      rw [hbuffered]
      split at hk <;> cases hk <;> rfl
  unfold fetchMut at hfetch
  split at hfetch
  · rename_i hk
    cases Except.ok.inj hfetch
    exact ⟨hroot, fun _ => hwalk.symm.trans (hkey hk)⟩
  · cases hfetch
  · cases hfetch

omit [LawfulExternals] in
/-- The calls of a cursor on its file leave it open. -/
theorem Opened.edited (h : c.Opened s T) (hfile : T c.path.names = some ⟨k, some y⟩)
    (hs : Edited e n T c.path.names k x s s') : c.Opened s' (setLeaf T c.path.names k x) := by
  refine ⟨h.notRoot, ?_⟩
  intro hepoch
  have hnode := h.node (hepoch.trans hs.epoch)
  rw [hfile] at hnode
  rw [setLeaf, if_pos rfl]
  exact hnode

/-- **A call through a cursor does to the file what it does to a value in memory.** -/
theorem call_edits {op : WriterOp} (hdist : Distinct e n) (h : Represents e n s T) (hc : c.Opened s T)
    (hfile : T c.path.names = some ⟨k, some x⟩) (hsize : Storable (x.apply op)) :
    Triple e n (· = s) (c.call indexes op) (fun _ => Edited e n T c.path.names k (x.apply op) s)
      (fun _ s' => indexes = [] → s' = s) := by
  have hvalue := h.value_file hfile
  cases op with
  | putScalar vpath scalar =>
    obtain ⟨⟨v, hs, ht⟩, hvalid⟩ := h
    refine reindexAround_edits hs fun s₁ hs₁ => ?_
    exact (putScalarInto_edits ht hvalid hs₁.sees hfile (hc.honest hs₁.epoch) hsize).consequence (fun _ h => h)
      (fun _ _ h => h) fun _ _ h => h.1
  | ensureContainer vpath isList =>
    rw [call, ensureContainer_eq]
    refine Triple.inspect_known x (fun _ hs => hs ▸ hvalue) ?_
    exact storeValueAt_edits hdist h hfile hsize
  | remove vpath =>
    refine Triple.bind (R := fun _ => Edited e n T c.path.names k (x.apply (.remove vpath)) s) ?_
      fun _ => Triple.pure fun _ h => h
    refine Triple.inspect_known x (fun _ hs => hs ▸ hvalue) ?_
    refine Triple.bind (storeValueAt_edits hdist h hfile hsize) ?_
    exact fun _ => Triple.pure fun _ h => h

/-- Calls through a cursor, one after the other. -/
def calls (c : Cursor) (indexes : List IndexEntry) (ops : List WriterOp) : TxM Unit :=
  Prog.forEach (c.call indexes) ops

theorem calls_edits {ops : List WriterOp} (hdist : Distinct e n) (h : Represents e n s T) (hc : c.Opened s T)
    (hfile : T c.path.names = some ⟨k, some x⟩) (hsize : ∀ done, done <+: ops → Storable (x.applyAll done)) :
    Triple e n (· = s) (c.calls indexes ops) (fun _ => Edited e n T c.path.names k (x.applyAll ops) s)
      (fun _ _ => True) := by
  refine (Triple.forEach (fun done => Edited e n T c.path.names k (x.applyAll done) s) ?_).pre ?_
  · rintro done op rest rfl
    refine Triple.of_states ?_
    intro s₁ hs₁
    have hfile₁ : setLeaf T c.path.names k (x.applyAll done) c.path.names =
        some ⟨k, some (x.applyAll done)⟩ := if_pos rfl
    have happly : (x.applyAll done).apply op = x.applyAll (done ++ [op]) := by
      rw [Value.applyAll_append]
      rfl
    refine (call_edits hdist hs₁.represents (hc.edited hfile hs₁) hfile₁ ?_).consequence (fun _ h => h) ?_
      fun _ _ _ => trivial
    · rw [happly]
      exact hsize _ (by simp)
    · intro _ s₂ hs₂
      rw [happly] at hs₂
      exact hs₁.trans hs₂
  · rintro _ rfl
    exact .refl h hfile

end Cursor

end Calls

end Over

end ArborDb
