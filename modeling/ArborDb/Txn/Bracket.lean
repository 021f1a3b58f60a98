import ArborDb.Txn.Mutations
import ArborDb.Txn.Write

/-!
# The bracket around a mutation

Index maintenance changes the index table alone. Before it the buffer is flushed, so that the
mutation works on a table that is up to date; what the transaction sees stays the same up to the
mutation itself.
-/

namespace ArborDb

open Prog (Triple)

variable {e : Env} {P : Policy e} {n d : Nat} {v : View} {s s₀ : TxState}

/-! ## Flushing before the bracket -/

/-- A policy under which a write of an a-node of the store keeps its list. -/
def Policy.Settled (P : Policy e) : Prop :=
  ∀ {v : View} {inodes : InodeTable} {k : AKey}, P.holds v inodes → v k ≠ none →
    (inodes.readAcl k).or (e.ownAcl k) = inodes.readAcl k

/-- The state `s` differs from `s₀` in nothing a mutation looks at. -/
structure Ready (P : Policy e) (n d : Nat) (v : View) (s₀ s : TxState) : Prop where
  sees : Sees P n d v s
  acl : P.Settled → ∀ k, s.inodes.readAcl k = s₀.inodes.readAcl k
  epoch : s.buffer.epoch = s₀.buffer.epoch

/-- The state `s` after a flush of `s₀`: up to date, with the same view. -/
structure Flushed (P : Policy e) (n d : Nat) (v : View) (s₀ s : TxState) : Prop extends
    Ready P n d v s₀ s where
  clean : ∀ k, s.buffer.dirs.get k = none ∧ s.buffer.files.get k = none
  index : s.index = s₀.index

namespace Flushed

theorem data (h : Flushed P n d v s₀ s) (k : AKey) : s.data.get k = v k := h.sees.data_get h.clean k

end Flushed

/-- Writing buffered entries keeps the lists, the count of structural changes and the index. -/
theorem flushBuffered_keeps {on : Bool} (hs₀ : Sees P n d v s₀) :
    Triple e n (fun s => s = { s₀ with buffer := { s₀.buffer.clear with buffering := on } })
      (flushBuffered s₀.buffer.dirs.entries s₀.buffer.files.entries)
      (fun _ s => (P.Settled → ∀ k, s.inodes.readAcl k = s₀.inodes.readAcl k) ∧
        s.buffer.epoch = s₀.buffer.epoch ∧ s.index = s₀.index) (fun _ _ => False) := by
  let I : TxState → Prop := fun s =>
    (P.Settled → ∀ k, s.inodes.readAcl k = s₀.inodes.readAcl k) ∧
      s.buffer.epoch = s₀.buffer.epoch ∧ s.index = s₀.index
  have hput : ∀ {k : AKey} {c : Entry}, v k ≠ none →
      Triple e n I (putEntry k c) (fun _ => I) (fun _ _ => False) := by
    intro k c hk
    apply Triple.modify
    rintro s ⟨hacl, hepoch, hindex⟩ _
    refine ⟨?_, hepoch, hindex⟩
    intro hsettled j
    have hrecord := readAcl_record e s.inodes k j c
    by_cases hj : j = k
    · subst hj
      rw [if_pos rfl, hacl hsettled, hsettled hs₀.policy hk] at hrecord
      exact hrecord
    · rw [if_neg hj, hacl hsettled] at hrecord
      exact hrecord
  have hdirs : ∀ x ∈ s₀.buffer.dirs.entries, v x.1 ≠ none := by
    intro x hx hnone
    have hget := SortedMap.get_iff_mem.2 hx
    rw [hs₀.dirs_none (by simp [hnone])] at hget
    cases hget
  have hfiles : ∀ x ∈ s₀.buffer.files.entries, v x.1 ≠ none := by
    intro x hx hnone
    obtain ⟨b, hb⟩ := hs₀.coherent.file (SortedMap.get_iff_mem.2 hx)
    exact hs₀.data_not_file (k := x.1) (by simp [hnone]) b hb
  have hflush : Triple e n I (flushBuffered s₀.buffer.dirs.entries s₀.buffer.files.entries)
      (fun _ => I) (fun _ _ => False) :=
    Triple.bind (Triple.forEach_keeps fun x hx => hput (hdirs x hx)) fun _ =>
      Triple.forEach_keeps fun x hx => hput (hfiles x hx)
  refine hflush.pre ?_
  rintro _ rfl
  exact ⟨fun _ _ => rfl, rfl, rfl⟩

theorem flushAndDisable_spec (hs₀ : Sees P n d v s₀) :
    Triple e n (· = s₀) flushAndDisable
      (fun _ s => Flushed P n d v s₀ s ∧ s.buffer.buffering = false) (fun _ _ => False) := by
  unfold flushAndDisable
  refine Triple.inspect_known s₀.buffer (fun _ hs => by rw [hs]) ?_
  refine Triple.bind (R := fun _ s => s = { s₀ with buffer :=
    { s₀.buffer.clear with buffering := false } }) (Triple.modify fun _ hs _ => by rw [hs]; rfl) ?_
  intro _
  refine ((flushBuffered_spec hs₀ rfl).and (flushBuffered_keeps hs₀)).post ?_
  rintro _ s ⟨⟨hsees, hclean, hoff⟩, hacl, hepoch, hindex⟩
  exact ⟨⟨⟨hsees, hacl, hepoch⟩, hclean, hindex⟩, hoff⟩

theorem flushBuffered_drawn (dirs : List (AKey × SortedMap Str AKey)) (files : List (AKey × Bytes)) :
    Prog.Keeps TxState.drawn (flushBuffered dirs files) :=
  .bind (.forEach (fun _ _ _ => rfl) dirs) fun _ => .forEach (fun _ _ _ => rfl) files

theorem flushAndDisable_drawn : Prog.Keeps TxState.drawn flushAndDisable :=
  .bind (.inspect _) fun _ => .bind (fun _ _ => rfl) fun _ => flushBuffered_drawn _ _

theorem commit_drawn : Prog.Keeps TxState.drawn commit :=
  .bind (.inspect _) fun _ => .bind (fun _ _ => rfl) fun _ => flushBuffered_drawn _ _

theorem commit_spec (hs₀ : Sees P n d v s₀) :
    Triple e n (· = s₀) commit (fun _ s => Flushed P n d v s₀ s) (fun _ _ => False) := by
  unfold commit flush
  refine Triple.inspect_known s₀.buffer (fun _ hs => by rw [hs]) ?_
  refine Triple.bind (R := fun _ s => s = { s₀ with buffer :=
    { s₀.buffer.clear with buffering := s₀.buffer.buffering } })
    (Triple.modify fun _ hs _ => by rw [hs]; rfl) ?_
  intro _
  refine ((flushBuffered_spec hs₀ rfl).and (flushBuffered_keeps hs₀)).post ?_
  rintro _ s ⟨⟨hsees, hclean, -⟩, hacl, hepoch, hindex⟩
  exact ⟨⟨hsees, hacl, hepoch⟩, hclean, hindex⟩

/-! ## Maintenance -/

/-- An assertion that does not look at the index table. -/
def Unindexed (I : TxState → Prop) : Prop := ∀ s index, I s → I { s with index := index }

theorem Ready.unindexed : Unindexed (Ready P n d v s₀) := fun _ _ h =>
  ⟨h.sees.setIndex _, h.acl, h.epoch⟩

section Maintenance

variable [Externals] {I : TxState → Prop} {indexes : List IndexEntry} {scope : APath}

theorem deleteEntries_keeps (hI : Unindexed I) :
    Triple e n I (deleteEntries indexes scope) (fun _ => I) (fun _ => I) := by
  refine Triple.forEach_keeps ?_
  intro entry _
  refine Triple.guard (fun _ _ hs => hs) ?_
  intro entries
  refine Triple.forEach_keeps ?_
  intro kv _
  exact Triple.modify fun s hs _ => hI s _ hs

theorem deleteEntries_drawn (scope : APath) : Prog.Keeps TxState.drawn (deleteEntries indexes scope) :=
  .forEach (fun _ => .bind (.inspect _) fun _ => .forEach (fun _ _ _ => rfl) _) indexes

theorem insertEntries_keeps (hI : Unindexed I) :
    Triple e n I (insertEntries indexes scope) (fun _ => I) (fun _ => I) := by
  refine Triple.forEach_keeps ?_
  intro entry _
  refine Triple.guard (fun _ _ hs => hs) ?_
  intro entries
  refine Triple.forEach_keeps ?_
  intro kv _
  have hinsert : Triple e n I (insertKey kv.1 kv.2) (fun _ => I) (fun _ => I) :=
    Triple.modify fun s hs _ => hI s _ hs
  split
  · exact Triple.guard (fun _ _ hs => hs) fun _ => hinsert
  · exact hinsert

/-- A mutation inside its bracket: what it leaves, maintenance keeps; a failure comes before it,
or in the maintenance after it. -/
theorem reindexAround_spec {α : Type} {scopes : List APath} {apply : TxM α}
    {Q : α → TxState → Prop} (hs₀ : Sees P n d v s₀) (hQ : ∀ a, Unindexed (Q a))
    (happly : ∀ s₁, Ready P n d v s₀ s₁ → Triple e n (· = s₁) apply Q (fun _ s => s = s₁)) :
    Triple e n (· = s₀) (reindexAround indexes scopes apply) Q
      (fun _ s => Ready P n d v s₀ s ∨ ∃ a, Q a s) := by
  unfold reindexAround
  split
  · refine (happly s₀ ⟨hs₀, fun _ _ => rfl, rfl⟩).consequence (fun _ h => h) (fun _ _ h => h) ?_
    rintro _ _ rfl
    exact .inl ⟨hs₀, fun _ _ => rfl, rfl⟩
  · refine Triple.bind (R := fun _ => Ready P n d v s₀) ?_ ?_
    · exact (flushAndDisable_spec hs₀).consequence (fun _ h => h) (fun _ _ h => h.1.toReady)
        fun _ _ h => h.elim
    · intro _
      refine Triple.bind (R := fun _ => Ready P n d v s₀) ?_ ?_
      · refine Triple.forEach_keeps fun scope _ => ?_
        exact (deleteEntries_keeps Ready.unindexed).consequence (fun _ h => h) (fun _ _ h => h)
          fun _ _ h => .inl h
      · intro _
        refine Triple.bind (R := Q) ?_ ?_
        · intro s₁ hs₁
          refine (happly s₁ hs₁).consequence (fun _ h => h) (fun _ _ h => h) ?_ s₁ rfl
          rintro _ _ rfl
          exact .inl hs₁
        · intro a
          refine Triple.bind (R := fun _ => Q a) ?_ fun _ => Triple.pure fun _ h => h
          refine Triple.forEach_keeps fun scope _ => ?_
          exact (insertEntries_keeps (hQ a)).consequence (fun _ h => h) (fun _ _ h => h)
            fun _ _ h => .inr ⟨a, h⟩

end Maintenance

end ArborDb
