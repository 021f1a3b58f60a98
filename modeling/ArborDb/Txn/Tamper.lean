import ArborDb.Txn.Links
import ArborDb.Txn.Seals

/-!
# A writer never launders tampering

An outsider can replace entries, lists and tags of a protected table, but not compute a tag. A tag is
computed by a direct write, by a flush, by a change of a list and by a copy; every one of them comes
after a read of the very a-node it seals, so an a-node whose tag does not match is never sealed
again. A copy reads every a-node of its source: it fails if one of them does not match its tag.
-/

namespace ArborDb

open Prog (Triple Maintains)

/-- The a-node has an entry that its keyed tag does not match. -/
def Broken (v : Vault) (s : TxState) (k : AKey) : Prop :=
  ∃ entry, s.data.get k = some entry ∧
    (s.inodes.readMeta k).2 ≠ some (macValue v.crypto v.key v.table k entry.toBytes
      (((s.inodes.readMeta k).1.map Acl.encode).getD []))

/-- The tables hold the broken a-nodes of `s₀` as `s₀` does, and the buffer holds none of them. -/
def Untouched (v : Vault) (s₀ s : TxState) : Prop :=
  ∀ k, Broken v s₀ k → s.data.get k = s₀.data.get k ∧ s.inodes.get k = s₀.inodes.get k ∧
    ¬ s.buffer.Holds k

section Untouched

variable {e : Env} {v : Vault} {n d : Nat} {s₀ s : TxState} {k : AKey}

theorem Broken.congr {t : TxState} (h : Broken v s k) (hdata : t.data.get k = s.data.get k)
    (hinodes : t.inodes.get k = s.inodes.get k) : Broken v t k := by
  unfold Broken
  rw [hdata, readMeta_eq, hinodes, ← readMeta_eq]
  exact h

/-- A broken a-node cannot be read. -/
theorem Untouched.read (h : Untouched v s₀ s) (he : e.Authenticated v) {o : Option Entry}
    (hread : readVerified e s k = .ok o) : ¬ Broken v s₀ k := by
  intro hbroken
  obtain ⟨hdata, hinodes, hheld⟩ := h k hbroken
  obtain ⟨entry, hentry, hmac⟩ := hbroken.congr hdata hinodes
  obtain ⟨session, hsession, hkey, _⟩ := he.session
  have hfile : s.buffer.files.get k = none := by
    by_contra hfile
    exact hheld (.inr hfile)
  unfold readVerified readTable verifyIntegrity at hread
  simp only [WriteBuffer.fileGet_eq, hfile, hentry, hsession, hkey, he.table, he.crypto] at hread
  rw [if_neg hmac] at hread
  cases hread

/-- A write of another a-node leaves the broken ones alone. -/
theorem Untouched.write {t : TxState} (h : Untouched v s₀ s) (hk : ¬ Broken v s₀ k)
    (hdata : ∀ j, j ≠ k → t.data.get j = s.data.get j)
    (hinodes : ∀ j, j ≠ k → t.inodes.get j = s.inodes.get j)
    (hheld : ∀ j, j ≠ k → t.buffer.Holds j → s.buffer.Holds j) : Untouched v s₀ t := by
  intro j hj
  have hjk : j ≠ k := fun hjk => hk (hjk ▸ hj)
  obtain ⟨hd, hi, hb⟩ := h j hj
  exact ⟨(hdata j hjk).trans hd, (hinodes j hjk).trans hi, fun hheld' => hb (hheld j hjk hheld')⟩

theorem Untouched.putEntry (h : Untouched v s₀ s) (hk : ¬ Broken v s₀ k) (entry : Entry) :
    Untouched v s₀ (s.putEntry e k entry) := by
  refine h.write hk (fun j hj => SortedMap.get_insert_ne _ _ hj)
    (fun j hj => record_get_ne e s.inodes entry hj) ?_
  intro j hj hheld
  refine hheld.imp_right fun hfile => ?_
  change (s.buffer.fileForget k).files.get j ≠ none at hfile
  rwa [WriteBuffer.get_files_fileForget, if_neg hj] at hfile

theorem Untouched.dirPut {inodes : InodeTable} {m : SortedMap Str AKey} (h : Untouched v s₀ s)
    (hk : ¬ Broken v s₀ k) (hinodes : ∀ j, j ≠ k → inodes.get j = s.inodes.get j) :
    Untouched v s₀ { s with inodes := inodes, buffer := s.buffer.dirPut k m } := by
  refine h.write hk (fun _ _ => rfl) hinodes ?_
  intro j hj hheld
  refine hheld.imp_left fun hdir => ?_
  change (s.buffer.dirs.insert k m).get j ≠ none at hdir
  rwa [SortedMap.get_insert_ne _ _ hj] at hdir

theorem Untouched.putAll (entries : List (AKey × Entry)) (h : Untouched v s₀ s)
    (hentries : ∀ x ∈ entries, ¬ Broken v s₀ x.1) : Untouched v s₀ (s.putAll e entries) := by
  induction entries generalizing s with
  | nil => exact h
  | cons x entries ih =>
    refine ih (h.putEntry (hentries x List.mem_cons_self) x.2) ?_
    exact fun y hy => hentries y (List.mem_cons_of_mem x hy)

theorem Untouched.flushed (buffering : Bool) (h : Untouched v s₀ s) :
    Untouched v s₀ (s.flushed e buffering) := by
  rw [TxState.flushed_eq]
  refine Untouched.putAll _ ?_ ?_
  · intro k hk
    obtain ⟨hdata, hinodes, _⟩ := h k hk
    exact ⟨hdata, hinodes, fun hheld => hheld.elim (absurd rfl) (absurd rfl)⟩
  · intro x hx hbroken
    exact (h x.1 hbroken).2.2 (WriteBuffer.mem_pending.1 (List.mem_map_of_mem hx))

/-- Every call leaves the broken a-nodes alone, if the keys it draws are none of them. -/
theorem untouched_guard (he : e.Authenticated v)
    (hfresh : ∀ i, d ≤ i → i < n → ¬ Broken v s₀ (e.gen i)) :
    Guard e n (fun k => ¬ Broken v s₀ k) fun s => Untouched v s₀ s ∧ d ≤ s.drawn where
  read h hread := h.1.read he hread
  dirty {s k m} h hget hbroken := by
    refine (h.1 k hbroken).2.2 (.inl ?_)
    simp [hget]
  fresh h hn := hfresh _ h.2 hn
  draw h := ⟨h.1, Nat.le_succ_of_le h.2⟩
  unindexed _ _ h := h
  bump h := h
  putEntry hk h := ⟨h.1.putEntry hk _, h.2⟩
  removeEntry {s k} hk h := by
    refine ⟨h.1.write hk (fun j hj => SortedMap.get_erase_ne _ hj) ?_ ?_, h.2⟩
    · intro j hj
      unfold TxState.removeEntry
      simp only
      split
      · rfl
      · exact SortedMap.get_erase_ne _ hj
    · intro j hj hheld
      refine hheld.imp ?_ ?_
      · intro hdir
        change (s.buffer.forget k).dirs.get j ≠ none at hdir
        rwa [WriteBuffer.get_dirs_forget, if_neg hj] at hdir
      · intro hfile
        change (s.buffer.forget k).files.get j ≠ none at hfile
        rwa [WriteBuffer.get_files_forget, if_neg hj] at hfile
  filePut {s k blob} hk h := by
    refine ⟨h.1.write hk (fun _ _ => rfl) (fun _ _ => rfl) ?_, h.2⟩
    intro j hj hheld
    refine hheld.imp_right fun hfile => ?_
    change (s.buffer.files.insert k blob).get j ≠ none at hfile
    rwa [SortedMap.get_insert_ne _ _ hj] at hfile
  dirPut hk h := ⟨h.1.dirPut hk fun _ _ => rfl, h.2⟩
  newDir {s k m} hk h := ⟨h.1.dirPut hk fun _ hj => stampNewDirAcl_get_ne e s.inodes hj, h.2⟩
  relist {s k acl} hk h := by
    refine ⟨h.1.write hk (fun _ _ => rfl) ?_ fun _ _ hheld => hheld, h.2⟩
    intro j hj
    exact (reseal_get_ne hj).trans (SortedMap.get_insert_ne _ _ hj)
  flushed buffering h := ⟨h.1.flushed buffering, by rw [TxState.flushed_drawn]; exact h.2⟩

end Untouched
/-! ## Copies -/

section Copies

variable {e : Env} {v : Vault} {s₀ s : TxState} {k : AKey}

/-- A broken a-node has an entry. -/
theorem Untouched.fresh (h : Untouched v s₀ s) (hk : s.entryAt k = none) : ¬ Broken v s₀ k := by
  intro hbroken
  obtain ⟨hdata, _⟩ := h k hbroken
  obtain ⟨entry, hentry, _⟩ := hbroken
  unfold TxState.entryAt at hk
  simp only [Option.or_eq_none_iff] at hk
  rw [hk.2.2, hentry] at hdata
  cases hdata

/-- A copy reads every a-node of its source, so none of them is broken. -/
theorem cp_intact [Externals] {indexes : List IndexEntry} {src dst : APath} {names : List Str}
    (he : e.Authenticated v) (hs : Untouched v s₀ s)
    (hfresh : ∀ i, s.drawn ≤ i → i < ((cp indexes src dst).run e s).2.drawn →
      s.entryAt (e.gen i) = none)
    (hok : ((cp indexes src dst).run e s).1 = .ok ()) (hk : s.follow .root (src.names ++ names) = some k) :
    ¬ Broken v s₀ k := by
  have hgen : ∀ i, s.drawn ≤ i → i < ((cp indexes src dst).run e s).2.drawn →
      ¬ Broken v s₀ (e.gen i) := fun i hi hn => hs.fresh (hfresh i hi hn)
  have G := untouched_guard he hgen
  have hsafe : CopySafe e _ s.drawn fun t => Untouched v s₀ t ∧ s.drawn ≤ t.drawn :=
    ⟨fun ht => G.draw ht, fun hi hn => G.put (hgen _ hi hn), fun hi hn => G.putDir (hgen _ hi hn)⟩
  have hcp : Triple e _ _ (cp indexes src dst) _ _ :=
    cp_visits (C := fun k => ¬ Broken v s₀ k) hfresh hsafe (fun ht _ hkind => G.kind ht hkind)
      G.unindexed G.flushAndDisable G.ensureDir G.clearSlot
  have hrun := hcp s ⟨⟨⟨hs, Nat.le_refl _⟩, Nat.le_refl _⟩, fun _ _ _ h => h⟩ (Nat.le_refl _)
  rw [show (cp indexes src dst).run e s = (.ok (), ((cp indexes src dst).run e s).2) from
    Prod.ext hok rfl] at hrun
  exact hrun names k hk

end Copies

/-! ## Runs -/

section Runs

variable [Externals] {v : Vault} {s₀ s : TxState}

/-- The keys that a call draws have no entry when it begins. -/
def OpStep.Fresh (e : Env) (names : Names) (s : TxState) (step : OpStep) : Prop :=
  ∀ i, s.drawn ≤ i → i < (step.exec e names s).2.drawn → s.entryAt (e.gen i) = none

/-- Every call of a run draws fresh keys. -/
def FreshKeys (s₀ : TxState) (txns : List OpTxn) : Prop :=
  ∀ before txn after, txns = before ++ txn :: after →
    ∀ done step rest, txn.steps = done ++ step :: rest →
      step.Fresh txn.env txn.names (txn.after (runOps s₀ before) done)

/-- One call leaves the broken a-nodes alone. -/
theorem Untouched.step {e : Env} {names : Names} {step : OpStep} (h : Untouched v s₀ s)
    (he : e.Authenticated v) (hfresh : step.Fresh e names s) :
    Untouched v s₀ (step.exec e names s).2 := by
  have hgen : ∀ i, s.drawn ≤ i → i < (step.exec e names s).2.drawn → ¬ Broken v s₀ (e.gen i) := by
    intro i hi hn
    exact h.fresh (hfresh i hi hn)
  exact ((untouched_guard (he.at step.now) hgen).op names step.indexes step.op s
    ⟨h, Nat.le_refl _⟩ (Nat.le_refl _)).1

/-- The calls of a transaction leave the broken a-nodes alone. -/
theorem Untouched.after {txn : OpTxn} (h : Untouched v s₀ s) (he : txn.env.Authenticated v)
    (hfresh : ∀ done step rest, txn.steps = done ++ step :: rest →
      step.Fresh txn.env txn.names (txn.after s done))
    (done rest : List OpStep) (hsteps : txn.steps = done ++ rest) :
    Untouched v s₀ (txn.after s done) := by
  induction done using List.reverseRecOn generalizing rest with
  | nil =>
    intro k hk
    obtain ⟨hdata, hinodes, _⟩ := h k hk
    exact ⟨hdata, hinodes, fun hheld => hheld.elim (absurd rfl) (absurd rfl)⟩
  | append_singleton done step ih =>
    rw [List.append_assoc, List.singleton_append] at hsteps
    rw [OpTxn.after_append]
    exact (ih (step :: rest) hsteps).step he (hfresh done step rest hsteps)

/-- The transactions of a run leave the broken a-nodes alone. -/
theorem untouched_runOps {txns : List OpTxn} (henv : ∀ txn ∈ txns, txn.env.Authenticated v)
    (hfresh : FreshKeys s₀ txns) (before after : List OpTxn) (htxns : txns = before ++ after) :
    Untouched v s₀ ((runOps s₀ before).begin true) := by
  induction before using List.reverseRecOn generalizing after with
  | nil => exact fun k hk => ⟨rfl, rfl, fun hheld => hheld.elim (absurd rfl) (absurd rfl)⟩
  | append_singleton before txn ih =>
    rw [List.append_assoc, List.singleton_append] at htxns
    have he : txn.env.Authenticated v := henv txn (by simp [htxns])
    have hafter : Untouched v s₀ (txn.after (runOps s₀ before) txn.steps) :=
      (ih (txn :: after) htxns).after he (hfresh before txn after htxns) txn.steps [] (by simp)
    intro k hk
    obtain ⟨hdata, hinodes, _⟩ := hafter.flushed (e := txn.env) _ k hk
    rw [runOps_append]
    exact ⟨hdata, hinodes, fun hheld => hheld.elim (absurd rfl) (absurd rfl)⟩

end Runs

/-! ## A small run -/

section Small

/-- A user has stored a file in a directory, and an outsider has replaced its value. -/
def tamperedFile : TxState :=
  letI := Reference.externals
  let names : Names := ⟨fun _ => none, fun _ => none⟩
  let stored := runOps .empty [⟨userEnv 5, names, true, [⟨0, [], .call (.store (pathOf ["a", "b"]) [])⟩]⟩]
  { stored with data := stored.data.insert (.ofNat 2) (.file [9]) }

/-- Another user copies the directory, and gives up. -/
def copyTampered : @OpTxn Reference.externals :=
  letI := Reference.externals
  ⟨userEnv 6, ⟨fun _ => none, fun _ => none⟩, true,
    [⟨0, [], .call (.cp (pathOf ["a"]) (pathOf ["c"]))⟩]⟩

end Small

end ArborDb
