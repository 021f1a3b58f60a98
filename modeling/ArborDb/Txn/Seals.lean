import ArborDb.Txn.Guard

/-!
# Seals of a protected table

Both tags of an a-node bind its entry and its access-control list. Within a transaction the two
change at different times: a buffered directory or file is sealed when the buffer is flushed, a
change of the list seals at once. What holds throughout is that every entry of the table which is
not buffered carries valid tags; a commit empties the buffer.
-/

namespace ArborDb

/-- What the tags of a table's a-nodes are computed with: the key pair of the database. -/
structure Vault where
  table : Str
  crypto : Crypto
  key : Bytes
  seed : Bytes

/-- The environment is the one of a user who has unlocked the key pair. -/
structure Env.Authenticated (e : Env) (v : Vault) : Prop where
  table : e.table = v.table
  crypto : e.crypto = v.crypto
  session : ∃ session, e.principal = .user session ∧ session.key = v.key ∧ session.signSeed = v.seed

/-- The keyed tag and the signature of an a-node verify over its entry and its list. -/
def Sealed (v : Vault) (inodes : InodeTable) (k : AKey) (entry : Entry) : Prop :=
  ∃ inode, inodes.get k = some inode ∧
    inode.mac = some (macValue v.crypto v.key v.table k entry.toBytes
      ((inode.acl.map Acl.encode).getD [])) ∧
    inode.sig = some (signValue v.crypto v.seed v.table k entry.toBytes
      ((inode.acl.map Acl.encode).getD []))

/-- Every a-node that has an entry is sealed. -/
def AllSealed (v : Vault) (s : TxState) : Prop :=
  ∀ k entry, s.data.get k = some entry → Sealed v s.inodes k entry

/-- Every a-node that has an entry and is not about to be written is sealed. -/
def SealedBut (v : Vault) (pending : AKey → Prop) (s : TxState) : Prop :=
  ∀ k entry, s.data.get k = some entry → ¬ pending k → Sealed v s.inodes k entry

section Steps

variable {e : Env} {v : Vault} {s : TxState} {k : AKey}

theorem Sealed.congr {inodes inodes' : InodeTable} {entry : Entry} (h : Sealed v inodes k entry)
    (hget : inodes'.get k = inodes.get k) : Sealed v inodes' k entry := by
  unfold Sealed
  rw [hget]
  exact h

theorem Env.Authenticated.build (he : e.Authenticated v) : e.build = .permissions := by
  obtain ⟨session, hsession, _⟩ := he.session
  by_contra hne
  rw [e.unprotected hne] at hsession
  cases hsession

theorem Env.Authenticated.at (he : e.Authenticated v) (now : Int) :
    { e with now := now : Env }.Authenticated v := ⟨he.table, he.crypto, he.session⟩

/-- A direct write seals what it writes. -/
theorem sealed_record (he : e.Authenticated v) (inodes : InodeTable) (entry : Entry) :
    Sealed v (e.record inodes k entry) k entry := by
  obtain ⟨session, hsession, hkey, hseed⟩ := he.session
  unfold Env.record
  simp only [he.build, hsession, InodeTable.stampAndSeal]
  refine ⟨_, SortedMap.get_insert_self _ _ _, ?_, ?_⟩
  · simp only [hkey, he.table, he.crypto]
  · simp only [hseed, he.table, he.crypto]

theorem reseal_get_ne {j : AKey} (h : j ≠ k) : (e.reseal s k).get j = s.inodes.get j := by
  unfold Env.reseal
  split
  · split
    · rfl
    · exact (SortedMap.get_insert_ne _ _ h).trans (SortedMap.get_insert_ne _ _ h)
  · rfl

/-- A change of the list seals the entry of the table, unless an edit of the file is buffered. -/
theorem sealed_reseal (he : e.Authenticated v) {entry : Entry} (hfile : s.buffer.files.get k = none)
    (hdata : s.data.get k = some entry) : Sealed v (e.reseal s k) k entry := by
  obtain ⟨session, hsession, hkey, hseed⟩ := he.session
  have hentry : ((s.buffer.fileGet k).map Entry.file).or (s.data.get k) = some entry := by
    rw [WriteBuffer.fileGet_eq, hfile, hdata]
    rfl
  unfold Env.reseal
  simp only [hsession, hentry]
  refine ⟨_, SortedMap.get_insert_self _ _ _, ?_, ?_⟩
  · simp only [InodeTable.sealMac, InodeTable.load, SortedMap.get_insert_self, Option.getD_some,
      hkey, he.table, he.crypto, InodeTable.readAcl]
    cases s.inodes.get k <;> rfl
  · simp only [InodeTable.sealMac, InodeTable.load, SortedMap.get_insert_self, Option.getD_some,
      hseed, he.table, he.crypto, InodeTable.readAcl]
    cases s.inodes.get k <;> rfl

/-- Writing an entry takes its a-node off what is pending. -/
theorem SealedBut.putEntry {pending pending' : AKey → Prop} {entry : Entry}
    (he : e.Authenticated v) (h : SealedBut v pending s)
    (hpending : ∀ j, j ≠ k → pending j → pending' j) : SealedBut v pending' (s.putEntry e k entry) := by
  intro j c hc hj
  unfold TxState.putEntry at hc ⊢
  by_cases hjk : j = k
  · subst hjk
    rw [SortedMap.get_insert_self] at hc
    cases hc
    exact sealed_record he s.inodes entry
  · rw [SortedMap.get_insert_ne _ _ hjk] at hc
    exact (h j c hc fun hp => hj (hpending j hjk hp)).congr (record_get_ne e s.inodes entry hjk)

/-- Once everything pending is written, everything is sealed. -/
theorem SealedBut.putAll (he : e.Authenticated v) (entries : List (AKey × Entry))
    (h : SealedBut v (· ∈ entries.map Prod.fst) s) :
    SealedBut v (fun _ => False) (s.putAll e entries) := by
  induction entries generalizing s with
  | nil => exact fun j c hc _ => h j c hc List.not_mem_nil
  | cons x entries ih =>
    refine ih (h.putEntry he ?_)
    intro j hj hmem
    rw [List.map_cons, List.mem_cons] at hmem
    exact hmem.resolve_left hj

/-- Every call keeps the entries that are not buffered sealed. -/
theorem sealedBut_guard (he : e.Authenticated v) (n : Nat) :
    Guard e n (fun _ => True) fun s => SealedBut v s.buffer.Holds s where
  read _ _ := trivial
  dirty _ _ := trivial
  fresh _ _ := trivial
  draw h := h
  unindexed _ _ h := h
  bump h := h
  putEntry {s k entry} _ h := by
    refine h.putEntry he ?_
    intro j hj hheld
    refine hheld.imp_right ?_
    intro hfile
    change (s.buffer.fileForget k).files.get j ≠ none
    rwa [WriteBuffer.get_files_fileForget, if_neg hj]
  removeEntry {s k} _ h := by
    intro j c hc hj
    by_cases hjk : j = k
    · subst hjk
      rw [TxState.removeEntry, SortedMap.get_erase_self] at hc
      cases hc
    · have hdata : s.data.get j = some c := by
        rwa [TxState.removeEntry, SortedMap.get_erase_ne _ hjk] at hc
      have hheld : ¬ s.buffer.Holds j := by
        intro hheld
        refine hj (hheld.imp ?_ ?_)
        · change _ → (s.buffer.forget k).dirs.get j ≠ none
          rw [WriteBuffer.get_dirs_forget, if_neg hjk]
          exact id
        · change _ → (s.buffer.forget k).files.get j ≠ none
          rw [WriteBuffer.get_files_forget, if_neg hjk]
          exact id
      refine (h j c hdata hheld).congr ?_
      unfold TxState.removeEntry
      simp only
      split
      · rfl
      · exact SortedMap.get_erase_ne _ hjk
  filePut {s k blob} _ h := by
    intro j c hc hj
    refine h j c hc fun hheld => hj (hheld.imp_right ?_)
    intro hfile
    change (s.buffer.files.insert k blob).get j ≠ none
    rw [SortedMap.get_insert]
    split
    · simp
    · exact hfile
  dirPut {s k m} _ h := by
    intro j c hc hj
    refine h j c hc fun hheld => hj (hheld.imp_left ?_)
    intro hdir
    change (s.buffer.dirs.insert k m).get j ≠ none
    rw [SortedMap.get_insert]
    split
    · simp
    · exact hdir
  newDir {s k m} _ h := by
    intro j c hc hj
    by_cases hjk : j = k
    · refine absurd (Or.inl ?_) hj
      change (s.buffer.dirs.insert k m).get j ≠ none
      simp [hjk]
    · refine (h j c hc fun hheld => hj (hheld.imp_left ?_)).congr
        (stampNewDirAcl_get_ne e s.inodes hjk)
      intro hdir
      change (s.buffer.dirs.insert k m).get j ≠ none
      rwa [SortedMap.get_insert_ne _ _ hjk]
  relist {s k acl} _ h := by
    intro j c hc hj
    unfold TxState.relist at hc hj ⊢
    by_cases hjk : j = k
    · subst hjk
      refine sealed_reseal he ?_ hc
      by_contra hfile
      exact hj (.inr hfile)
    · refine (h j c hc hj).congr ?_
      exact (reseal_get_ne hjk).trans (SortedMap.get_insert_ne _ _ hjk)
  flushed {s} buffering h := by
    rw [TxState.flushed_eq]
    have hall : SealedBut v (fun _ => False) (TxState.putAll e
        { s with buffer := { s.buffer.clear with buffering := buffering } } s.buffer.pending) := by
      refine SealedBut.putAll he _ ?_
      intro j c hc hj
      exact h j c hc fun hheld => hj (WriteBuffer.mem_pending.2 hheld)
    intro j c hc _
    exact hall j c hc id

end Steps

/-! ## Runs -/

section Runs

variable [Externals] {v : Vault} {s : TxState}

/-- One transaction keeps every seal valid. -/
theorem AllSealed.txn {txn : OpTxn} (he : txn.env.Authenticated v) (h : AllSealed v s) :
    AllSealed v (txn.run s) := by
  have hafter : SealedBut v (txn.after s txn.steps).buffer.Holds (txn.after s txn.steps) := by
    unfold OpTxn.after
    have hbegin : SealedBut v (s.begin txn.buffering).buffer.Holds (s.begin txn.buffering) :=
      fun j c hc _ => h j c hc
    generalize s.begin txn.buffering = s₀ at hbegin
    induction txn.steps generalizing s₀ with
    | nil => exact hbegin
    | cons step steps ih =>
      refine ih _ ?_
      exact (sealedBut_guard (he.at step.now) _).op txn.names step.indexes step.op s₀ hbegin
        (Nat.le_refl _)
  have hcommit : SealedBut v (fun _ => False) (txn.run s) := by
    change SealedBut v _ (TxState.flushed txn.env _ _)
    rw [TxState.flushed_eq]
    refine SealedBut.putAll he _ ?_
    intro j c hc hj
    exact hafter j c hc fun hheld => hj (WriteBuffer.mem_pending.2 hheld)
  exact fun j c hc => hcommit j c hc id

/-- **Transactions keep every seal valid.** From tables whose a-nodes are all sealed, any calls of
any authenticated users, whichever succeed, commit tables whose a-nodes are all sealed. -/
theorem runOps_allSealed {txns : List OpTxn} (henv : ∀ txn ∈ txns, txn.env.Authenticated v)
    (h : AllSealed v s) : AllSealed v (runOps s txns) := by
  unfold runOps
  induction txns generalizing s with
  | nil => exact h
  | cons txn txns ih =>
    refine ih (fun x hx => henv x (List.mem_cons_of_mem txn hx)) ?_
    exact h.txn (henv txn List.mem_cons_self)

end Runs

/-! ## A small run -/

section Small

def userVault : Vault := ⟨⟨"t"⟩, (userEnv 5).crypto, [7], [8]⟩

theorem userEnv_authenticated (uid : Id32) : (userEnv uid).Authenticated userVault :=
  ⟨rfl, rfl, _, rfl, rfl, rfl⟩

/-- A user stores a file in a new directory and shares both, one before and one after a flush. -/
def storeAndShare : List (@OpTxn Reference.externals) :=
  letI := Reference.externals
  let names : Names := ⟨fun _ => none, fun _ => some 9⟩
  [⟨userEnv 5, names, true, [⟨0, [], .call (.store (pathOf ["a", "b"]) [])⟩,
      ⟨1, [], .setAcl (pathOf ["a"]) .other .modify⟩]⟩,
    ⟨userEnv 5, names, false, [⟨2, [], .addGroup (pathOf ["a", "b"]) ⟨"g"⟩⟩]⟩]

theorem runOps_allSealed_share : letI := Reference.externals
    AllSealed userVault .empty ∧ (runOps .empty storeAndShare).data.get (.ofNat 2) = some (.file []) ∧
      AllSealed userVault (runOps .empty storeAndShare) := by
  let _ := Reference.externals
  have hempty : AllSealed userVault .empty := fun _ _ h => by cases h
  refine ⟨hempty, by decide, runOps_allSealed ?_ hempty⟩
  intro txn htxn
  simp only [storeAndShare, List.mem_cons, List.not_mem_nil, or_false] at htxn
  obtain rfl | rfl := htxn
  · exact userEnv_authenticated 5
  · exact userEnv_authenticated 5

end Small

end ArborDb
