import ArborDb.Txn.Links

/-!
# Every mutation is authorised

What a call may do to an a-node is decided by the lists in place before the call. The checks are made
while the call walks, creates and deletes, on lists as they are then; `Underway` relates a state in
the middle of a call to the state before it, says which changes the lists of the latter allow, and
that the lists of the a-nodes still there are the same.

A call that deletes a directory and then edits it gives that directory a new list. In a tree, only a
move onto an ancestor of its source does.
-/

namespace ArborDb

open Prog (Triple Maintains)

/-- The list of an a-node grants the caller a grade. -/
def Granted (e : Env) (s : TxState) (k : AKey) (needed : Rights) : Prop := check e s k needed = .ok ()

/-- What every reachable state keeps to: the buffer is coherent with the table, and every a-node but
the root has a list. -/
structure Tidy (s : TxState) : Prop where
  coherent : Coherent s
  listed : ∀ k, k ≠ .root → s.entryAt k ≠ none → s.inodes.readAcl k ≠ none

/-- The link of an entry by name. -/
def Entry.link (o : Option Entry) (name : Str) : Option AKey :=
  match o with
  | some (.dir children) => children.get name
  | _ => none

theorem linkAt_eq (s : TxState) (k : AKey) (name : Str) :
    s.linkAt k name = Entry.link (s.entryAt k) name := rfl

/-- The lists of `s` allow that an a-node has the entry `o`. -/
structure Allowed (e : Env) (s : TxState) (k : AKey) (o : Option Entry) : Prop where
  /-- An a-node that is removed grants Delete. -/
  removed : s.entryAt k ≠ none → o = none → Granted e s k .delete
  /-- An a-node that is unlinked grants Delete. -/
  unlinked : ∀ name c, s.linkAt k name = some c → s.entryAt c ≠ none → Entry.link o name ≠ some c →
    Granted e s c .delete
  /-- A file that is changed grants Modify. -/
  edited : ∀ b c, s.entryAt k = some (.file b) → o = some c → c ≠ .file b → Granted e s k .modify
  /-- A directory that gains a child grants Modify, or is new. -/
  linked : ∀ name c, Entry.link o name = some c → s.linkAt k name ≠ some c →
    s.entryAt k = none ∨ Granted e s k .modify
  /-- No file turns into a directory, nor the other way round. -/
  kind : ∀ c c', s.entryAt k = some c → o = some c' → c.kind = c'.kind

/-- A state in the middle of a call that started in `s`. -/
structure Underway (e : Env) (n : Nat) (s t : TxState) : Prop where
  tidy : Tidy t
  allowed : ∀ k, Allowed e s k (t.entryAt k)
  acl : ∀ k, s.entryAt k ≠ none → t.entryAt k ≠ none → t.inodes.readAcl k = s.inodes.readAcl k
  fresh : ∀ i, t.drawn ≤ i → i < n → t.entryAt (e.gen i) = none
  since : s.drawn ≤ t.drawn

section Reads

variable {e : Env} {s t : TxState} {k : AKey}

/-- In a coherent state the order of the two buffers does not matter. -/
theorem Coherent.entryAt_of_dirs (h : Coherent t) {m : SortedMap Str AKey}
    (hm : t.buffer.dirs.get k = some m) : t.entryAt k = some (.dir m) := by
  unfold TxState.entryAt
  rw [(h.dir hm).1, hm]
  rfl

theorem Coherent.dirs_of_file (h : Coherent t) {b : Bytes} (hb : t.entryAt k = some (.file b)) :
    t.buffer.dirs.get k = none := by
  cases hd : t.buffer.dirs.get k with
  | none => rfl
  | some m =>
    rw [h.entryAt_of_dirs hd] at hb
    cases hb

theorem entryAt_none (h : t.entryAt k = none) :
    t.buffer.files.get k = none ∧ t.buffer.dirs.get k = none ∧ t.data.get k = none := by
  unfold TxState.entryAt at h
  simpa only [Option.or_eq_none_iff, Option.map_eq_none_iff] using h

/-- An a-node that neither the buffered directories nor the table hold has no entry. -/
theorem Coherent.entryAt_of_absent (h : Coherent t) (hk : hasEntry t k = false) : t.entryAt k = none := by
  simp only [hasEntry, WriteBuffer.dirGet_eq, SortedMap.contains, Bool.or_eq_false_iff,
    Option.isSome_eq_false_iff, Option.isNone_iff_eq_none] at hk
  have hfile : t.buffer.files.get k = none := by
    by_contra hne
    obtain ⟨b, hb⟩ := Option.ne_none_iff_exists'.1 hne
    obtain ⟨b', hb'⟩ := h.file hb
    cases hk.2.symm.trans hb'
  unfold TxState.entryAt
  rw [hfile, hk.1, hk.2]
  rfl

theorem readTable_cases {o : Option Entry} (h : readTable e t k = .ok o) : o = t.data.get k := by
  cases hdata : t.data.get k with
  | none =>
    unfold readTable at h
    rw [hdata] at h
    cases h
    rfl
  | some entry => exact readTable_of_data hdata h

/-- An entry that is read from a coherent state, and no buffered directory covers, is the a-node's. -/
theorem readVerified_entryAt {o : Option Entry} (hd : t.buffer.dirs.get k = none)
    (h : readVerified e t k = .ok o) : t.entryAt k = o := by
  unfold readVerified at h
  rw [WriteBuffer.fileGet_eq] at h
  unfold TxState.entryAt
  cases hf : t.buffer.files.get k with
  | some blob =>
    rw [hf] at h
    cases h
    rfl
  | none =>
    rw [hf] at h
    rw [hd, readTable_cases h]
    rfl

theorem Coherent.linkAt_of_child (hc : Coherent t) {name : Str} {c : AKey}
    (h : child e t k name = .ok (some c)) : t.linkAt k name = some c := by
  unfold child at h
  rw [WriteBuffer.dirGet_eq] at h
  rw [linkAt_eq]
  cases hd : t.buffer.dirs.get k with
  | some m =>
    rw [hd] at h
    rw [hc.entryAt_of_dirs hd]
    exact Except.ok.inj h
  | none =>
    rw [hd] at h
    obtain ⟨o, ho, h⟩ := Except.bind_eq_ok.1 h
    rw [readVerified_entryAt hd ho]
    rcases o with _ | (_ | m)
    · cases h
    · cases h
    · exact Except.ok.inj h

theorem Coherent.linkAt_of_cascade (hc : Coherent t) {l : List AKey}
    (h : cascadeChildren e t k = .ok (some l)) {c : AKey} (hmem : c ∈ l) :
    ∃ name, t.linkAt k name = some c := by
  have hvalues : ∀ m : SortedMap Str AKey, c ∈ m.values → ∃ name, m.get name = some c := by
    intro m hm
    obtain ⟨x, hx, rfl⟩ := List.mem_map.1 hm
    exact ⟨x.1, SortedMap.get_iff_mem.2 hx⟩
  unfold cascadeChildren at h
  rw [WriteBuffer.dirGet_eq] at h
  simp only [linkAt_eq]
  cases hd : t.buffer.dirs.get k with
  | some m =>
    rw [hd] at h
    cases h
    rw [hc.entryAt_of_dirs hd]
    exact hvalues m hmem
  | none =>
    rw [hd] at h
    obtain ⟨o, ho, h⟩ := Except.bind_eq_ok.1 h
    rw [readVerified_entryAt hd ho]
    rcases o with _ | (_ | m)
    · cases h
    · cases h
      cases hmem
    · cases h
      exact hvalues m hmem

theorem Coherent.entryAt_of_dirChildren (hc : Coherent t) {m : SortedMap Str AKey}
    (hne : t.entryAt k ≠ none) (h : dirChildren e t k = .ok m) : t.entryAt k = some (.dir m) := by
  unfold dirChildren at h
  rw [WriteBuffer.dirGet_eq] at h
  cases hd : t.buffer.dirs.get k with
  | some m' =>
    rw [hd] at h
    cases h
    exact hc.entryAt_of_dirs hd
  | none =>
    rw [hd] at h
    obtain ⟨o, ho, h⟩ := Except.bind_eq_ok.1 h
    have hentry := readVerified_entryAt hd ho
    rcases o with _ | (_ | m')
    · exact absurd hentry hne
    · cases h
    · cases h
      exact hentry

theorem Coherent.data_of_dir (hc : Coherent t) {m : SortedMap Str AKey}
    (h : t.entryAt k = some (.dir m)) (b : Bytes) : t.data.get k ≠ some (.file b) := by
  rcases entryAt_dir h with ⟨_, hd | ⟨_, hdata⟩⟩
  · exact (hc.dir hd).2 b
  · rw [hdata]
    exact nofun

theorem Coherent.follow_of_resolve (hc : Coherent t) {names : List Str} {a : AKey}
    (h : resolveFrom e t k names = .ok (some a)) : t.follow k names = some a := by
  induction names generalizing k with
  | nil => exact Except.ok.inj h
  | cons name names ih =>
    obtain ⟨_, _, h⟩ := Except.bind_eq_ok.1 h
    obtain ⟨found, hfound, h⟩ := Except.bind_eq_ok.1 h
    cases found with
    | none => cases h
    | some c => exact Option.bind_eq_some_iff.2 ⟨c, hc.linkAt_of_child hfound, ih h⟩

theorem file_of_kind (h : kind e t k = .ok (some .file)) :
    ∃ b, t.entryAt k = some (.file b) := by
  unfold kind at h
  rw [WriteBuffer.dirGet_eq] at h
  cases hd : t.buffer.dirs.get k with
  | some m =>
    rw [hd] at h
    cases h
  | none =>
    rw [hd] at h
    obtain ⟨o, ho, h⟩ := Except.bind_eq_ok.1 h
    have hentry := readVerified_entryAt hd ho
    rcases o with _ | (b | m)
    · cases h
    · exact ⟨b, hentry⟩
    · cases h

/-- A file that is read is no buffered directory. -/
theorem Coherent.file_of_read (hc : Coherent t) {b : Bytes}
    (h : readVerified e t k = .ok (some (.file b))) : t.entryAt k = some (.file b) := by
  apply readVerified_entryAt _ h
  cases hd : t.buffer.dirs.get k with
  | none => rfl
  | some m =>
    rcases hc.dir hd with ⟨hf, hdata⟩
    unfold readVerified at h
    rw [WriteBuffer.fileGet_eq, hf] at h
    exact absurd (readTable_cases h).symm (hdata b)

theorem follow_congr (h : ∀ j, t.entryAt j = s.entryAt j) (names : List Str) (k : AKey) :
    t.follow k names = s.follow k names := by
  induction names generalizing k with
  | nil => rfl
  | cons name names ih =>
    unfold TxState.follow
    rw [linkAt_congr (h k)]
    exact congrArg _ (funext ih)

/-- A checked subtree is checked throughout. -/
theorem checkDeletable_follow {fuel : Nat} (h : checkDeletable e t fuel k = .ok ()) (names : List Str)
    {c : AKey} (hc : t.follow k names = some c) : check e t c .delete = .ok () := by
  induction fuel generalizing k names with
  | zero => cases h
  | succ fuel ih =>
    obtain ⟨_, hcheck, h⟩ := Except.bind_eq_ok.1 h
    cases names with
    | nil =>
      cases hc
      exact hcheck
    | cons name names =>
      obtain ⟨a, ha, hc⟩ := Option.bind_eq_some_iff.1 hc
      obtain ⟨found, hfound, h⟩ := Except.bind_eq_ok.1 h
      rw [if_pos (kind_of_linkAt hfound ha)] at h
      obtain ⟨children, hchildren, h⟩ := Except.bind_eq_ok.1 h
      have hmem : a ∈ children.values :=
        List.mem_map.2 ⟨(name, a), SortedMap.get_iff_mem.1 (dirChildren_of_linkAt hchildren ha), rfl⟩
      exact ih (forM_eq_ok.1 h a hmem) names hc

end Reads

/-! ## Changes of one a-node -/

namespace Underway

variable {e : Env} {n : Nat} {s t : TxState} {k p : AKey}

theorem start (hs : Tidy s) (hfresh : ∀ i, s.drawn ≤ i → i < n → s.entryAt (e.gen i) = none) :
    Underway e n s s := by
  refine ⟨hs, fun k => ?_, fun _ _ _ => rfl, hfresh, Nat.le_refl _⟩
  constructor
  · exact fun hne hnone => absurd hnone hne
  · exact fun name c hc _ hne => absurd hc hne
  · intro b c hb hc hne
    rw [hb] at hc
    exact absurd (Option.some.inj hc).symm hne
  · exact fun name c hc hne => absurd hc hne
  · intro c c' hc hc'
    rw [hc] at hc'
    rw [Option.some.inj hc']

/-- An a-node that is there in both states grants what it is checked for. -/
theorem granted (h : Underway e n s t) {needed : Rights} (hk : s.entryAt k ≠ none)
    (ht : t.entryAt k ≠ none) (hcheck : check e t k needed = .ok ()) : Granted e s k needed := by
  unfold Granted
  unfold check at hcheck ⊢
  rwa [h.acl k hk ht] at hcheck

/-- An a-node that is checked for Delete may be removed, or has been. -/
theorem granted_delete (h : Underway e n s t) (hk : s.entryAt k ≠ none)
    (hcheck : check e t k .delete = .ok ()) : Granted e s k .delete := by
  by_cases ht : t.entryAt k = none
  · exact (h.allowed k).removed hk ht
  · exact h.granted hk ht hcheck

theorem not_future (h : Underway e n s t) (hk : t.entryAt k ≠ none) {i : Nat} (hi : t.drawn ≤ i)
    (hn : i < n) : e.gen i ≠ k := by
  intro hgen
  rw [← hgen] at hk
  exact hk (h.fresh i hi hn)

/-- A write of one a-node. -/
theorem write {t' : TxState} (h : Underway e n s t) (hcoherent : Coherent t')
    (hne : ∀ j, j ≠ k → t'.entryAt j = t.entryAt j)
    (hacl : ∀ j, j ≠ k → t'.inodes.readAcl j = t.inodes.readAcl j) (hdrawn : t'.drawn = t.drawn)
    (hk : Allowed e s k (t'.entryAt k))
    (hlist : t'.entryAt k ≠ none → (k ≠ .root → t'.inodes.readAcl k ≠ none) ∧
      (s.entryAt k ≠ none → t'.inodes.readAcl k = s.inodes.readAcl k))
    (hfuture : t'.entryAt k ≠ none → ∀ i, t.drawn ≤ i → i < n → e.gen i ≠ k) :
    Underway e n s t' where
  tidy := by
    refine ⟨hcoherent, fun j hroot hj => ?_⟩
    by_cases hjk : j = k
    · subst hjk
      exact (hlist hj).1 hroot
    · rw [hacl j hjk]
      rw [hne j hjk] at hj
      exact h.tidy.listed j hroot hj
  allowed j := by
    by_cases hjk : j = k
    · subst hjk
      exact hk
    · rw [hne j hjk]
      exact h.allowed j
  acl j hs hj := by
    by_cases hjk : j = k
    · subst hjk
      exact (hlist hj).2 hs
    · rw [hacl j hjk]
      rw [hne j hjk] at hj
      exact h.acl j hs hj
  fresh i hi hn := by
    rw [hdrawn] at hi
    by_cases hik : e.gen i = k
    · by_contra hentry
      rw [hik] at hentry
      exact hfuture hentry i hi hn hik
    · rw [hne _ hik]
      exact h.fresh i hi hn
  since := by
    rw [hdrawn]
    exact h.since

theorem draw (h : Underway e n s t) : Underway e n s { t with drawn := t.drawn + 1 } :=
  ⟨⟨⟨h.tidy.coherent.file, h.tidy.coherent.dir, h.tidy.coherent.off⟩, h.tidy.listed⟩, h.allowed, h.acl,
    fun i hi hn => h.fresh i ((Nat.le_succ _).trans hi) hn, h.since.trans (Nat.le_succ _)⟩

theorem unindexed : Unindexed (Underway e n s) := fun _ _ h =>
  ⟨⟨⟨h.tidy.coherent.file, h.tidy.coherent.dir, h.tidy.coherent.off⟩, h.tidy.listed⟩, h.allowed, h.acl,
    h.fresh, h.since⟩

theorem bump (h : Underway e n s t) : Underway e n s { t with buffer := t.buffer.bumpStructure } :=
  ⟨⟨⟨h.tidy.coherent.file, h.tidy.coherent.dir, h.tidy.coherent.off⟩, h.tidy.listed⟩, h.allowed, h.acl,
    h.fresh, h.since⟩

/-- The list of an a-node that is there stays when the a-node is written. -/
theorem list_kept (h : Underway e n s t) (hk : t.entryAt k ≠ none) :
    (t.inodes.readAcl k).or (e.ownAcl k) = t.inodes.readAcl k := by
  by_cases hroot : k = .root
  · have hown : e.ownAcl k = none := by
      unfold Env.ownAcl
      split
      · rw [if_pos hroot]
      · rfl
    rw [hown, Option.or_none]
  · obtain ⟨acl, hacl⟩ := Option.ne_none_iff_exists'.1 (h.tidy.listed k hroot hk)
    rw [hacl]
    rfl

theorem list_of_kept {t' : TxState} (h : Underway e n s t) (hk : t.entryAt k ≠ none)
    (hacl : t'.inodes.readAcl k = t.inodes.readAcl k) :
    (k ≠ .root → t'.inodes.readAcl k ≠ none) ∧
      (s.entryAt k ≠ none → t'.inodes.readAcl k = s.inodes.readAcl k) := by
  rw [hacl]
  exact ⟨fun hroot => h.tidy.listed k hroot hk, fun hs => h.acl k hs hk⟩

/-! ### Writes -/

theorem allowed_new (hk : s.entryAt k = none) (o : Option Entry) : Allowed e s k o where
  removed hne _ := absurd hk hne
  unlinked name c hc _ _ := by
    rw [linkAt_of_entryAt_none hk] at hc
    cases hc
  edited b c hb _ _ := by
    rw [hk] at hb
    cases hb
  linked _ _ _ _ := .inl hk
  kind c c' hc _ := by
    rw [hk] at hc
    cases hc

theorem entryAt_putEntry_self {c : Entry} (hd : t.buffer.dirs.get k = none) :
    (t.putEntry e k c).entryAt k = some c := by
  unfold TxState.entryAt TxState.putEntry
  simp only
  rw [WriteBuffer.get_files_fileForget, if_pos rfl, SortedMap.get_insert_self,
    WriteBuffer.dirs_fileForget, hd]
  rfl

theorem readAcl_putEntry (c : Entry) (j : AKey) : (t.putEntry e k c).inodes.readAcl j =
    if j = k then (t.inodes.readAcl k).or (e.ownAcl k) else t.inodes.readAcl j :=
  readAcl_record e t.inodes k j c

/-- A key that the call has drawn and not written yet. -/
structure Reserved (e : Env) (n : Nat) (s t : TxState) (k : AKey) : Prop where
  absent : t.entryAt k = none
  new : s.entryAt k = none
  drawn : ∀ i, t.drawn ≤ i → i < n → e.gen i ≠ k

theorem protected_of_user (huser : ∃ session, e.principal = .user session) :
    e.build = .permissions := by
  obtain ⟨session, hsession⟩ := huser
  by_contra hne
  rw [e.unprotected hne] at hsession
  cases hsession

theorem ownAcl_ne_none (huser : ∃ session, e.principal = .user session) (hk : k ≠ .root) :
    e.ownAcl k ≠ none := by
  obtain ⟨session, hsession⟩ := huser
  unfold Env.ownAcl
  rw [hsession]
  simp [hk]

theorem list_of_new {t' : TxState} (huser : ∃ session, e.principal = .user session)
    (hk : Reserved e n s t k) (hacl : t'.inodes.readAcl k = (t.inodes.readAcl k).or (e.ownAcl k)) :
    (k ≠ .root → t'.inodes.readAcl k ≠ none) ∧
      (s.entryAt k ≠ none → t'.inodes.readAcl k = s.inodes.readAcl k) := by
  refine ⟨fun hroot => ?_, fun hs => absurd hk.new hs⟩
  rw [hacl, Ne, Option.or_eq_none_iff]
  exact fun hnone => ownAcl_ne_none huser hroot hnone.2

theorem putNew (h : Underway e n s t) (huser : ∃ session, e.principal = .user session)
    (hk : Reserved e n s t k) (c : Entry) : Underway e n s (t.putEntry e k c) := by
  have hd := (entryAt_none hk.absent).2.1
  apply h.write (k := k) (h.tidy.coherent.putEntry hd) (fun j hj => entryAt_putEntry_ne c hj)
  · intro j hj
    rw [readAcl_putEntry, if_neg hj]
  · rfl
  · exact allowed_new hk.new _
  · exact fun _ => list_of_new huser hk ((readAcl_putEntry c k).trans (if_pos rfl))
  · exact fun _ => hk.drawn

theorem putDirNew (h : Underway e n s t) (huser : ∃ session, e.principal = .user session)
    (hk : Reserved e n s t k) (m : SortedMap Str AKey) :
    Underway e n s ((putDir k m).run e t).2 := by
  change Underway e n s (if t.buffer.buffering then _ else _)
  split
  · rename_i hon
    apply h.write (k := k) (h.tidy.coherent.dirPut hon ?_) (fun j hj => entryAt_dirPut_ne m hj)
    · intro j hj
      rw [readAcl_stamp, if_neg hj]
    · rfl
    · exact allowed_new hk.new _
    · exact fun _ => list_of_new huser hk ((readAcl_stamp e t.inodes k k).trans (if_pos rfl))
    · exact fun _ => hk.drawn
    · intro b hb
      rw [(entryAt_none hk.absent).2.2] at hb
      cases hb
  · exact h.putNew huser hk _

/-- A new directory has the children it was written with. -/
theorem entryAt_putDirNew (hk : t.entryAt k = none) (m : SortedMap Str AKey) :
    ((putDir k m).run e t).2.entryAt k = some (.dir m) := by
  obtain ⟨hf, hd, _⟩ := entryAt_none hk
  change (if t.buffer.buffering then _ else _ : TxState).entryAt k = _
  split
  · change ((t.buffer.files.get k).map Entry.file).or
      ((((t.buffer.dirs.insert k m).get k).map Entry.dir).or _) = _
    rw [hf, SortedMap.get_insert_self]
    rfl
  · exact entryAt_putEntry_self hd

/-- An edit of a file that grants Modify. -/
theorem allowed_edit (h : Underway e n s t) {b : Bytes} (hk : t.entryAt k = some (.file b))
    (hmodify : s.entryAt k ≠ none → Granted e s k .modify) (blob : Bytes) :
    Allowed e s k (some (.file blob)) where
  removed _ hnone := by cases hnone
  unlinked name c hc _ _ := by
    obtain ⟨m, hm, _⟩ := entryAt_of_linkAt hc
    cases (h.allowed k).kind _ _ hm hk
  edited b' c hb _ _ := hmodify (by rw [hb]; exact Option.some_ne_none _)
  linked _ _ hc _ := by cases hc
  kind c c' hc hc' := by
    cases hc'
    exact (h.allowed k).kind c (.file b) hc hk

theorem putFile (h : Underway e n s t) {b : Bytes} (hk : t.entryAt k = some (.file b))
    (hmodify : s.entryAt k ≠ none → Granted e s k .modify) (blob : Bytes) :
    Underway e n s (t.putEntry e k (.file blob)) := by
  have hd := h.tidy.coherent.dirs_of_file hk
  have hne : t.entryAt k ≠ none := by rw [hk]; exact Option.some_ne_none _
  apply h.write (k := k) (h.tidy.coherent.putEntry hd) (fun j hj => entryAt_putEntry_ne _ hj)
  · intro j hj
    rw [readAcl_putEntry, if_neg hj]
  · rfl
  · rw [entryAt_putEntry_self hd]
    exact h.allowed_edit hk hmodify blob
  · intro _
    apply h.list_of_kept hne
    rw [readAcl_putEntry, if_pos rfl, h.list_kept hne]
  · exact fun _ i hi hn => h.not_future hne hi hn

theorem putFileEdit (h : Underway e n s t) {b : Bytes} (hk : t.entryAt k = some (.file b))
    (hmodify : s.entryAt k ≠ none → Granted e s k .modify) (blob : Bytes) :
    Underway e n s ((ArborDb.putFileEdit k blob).run e t).2 := by
  have hne : t.entryAt k ≠ none := by rw [hk]; exact Option.some_ne_none _
  have hd := h.tidy.coherent.dirs_of_file hk
  change Underway e n s (if t.buffer.buffering then _ else _)
  split
  · rename_i hon
    have hdata : ∃ b', t.data.get k = some (.file b') := by
      unfold TxState.entryAt at hk
      rw [hd] at hk
      cases hf : t.buffer.files.get k with
      | some blob => exact h.tidy.coherent.file hf
      | none =>
        rw [hf] at hk
        exact ⟨b, hk⟩
    have hother : ∀ j, j ≠ k → ({ t with buffer := t.buffer.filePut k blob } : TxState).entryAt j =
        t.entryAt j := fun j hj => entryAt_congr (SortedMap.get_insert_ne _ _ hj) rfl rfl
    have hself : ({ t with buffer := t.buffer.filePut k blob } : TxState).entryAt k =
        some (.file blob) := by
      change (((t.buffer.files.insert k blob).get k).map Entry.file).or _ = _
      rw [SortedMap.get_insert_self]
      rfl
    apply h.write (k := k) (h.tidy.coherent.filePut hon hd hdata) hother (fun _ _ => rfl) rfl
    · rw [hself]
      exact h.allowed_edit hk hmodify blob
    · exact fun _ => h.list_of_kept hne rfl
    · exact fun _ i hi hn => h.not_future hne hi hn
  · exact h.putFile hk hmodify blob

theorem removeEntry (h : Underway e n s t) (hk : Allowed e s k none) (hbuild : e.build = .permissions) :
    Underway e n s (t.removeEntry e k) := by
  have hself : (t.removeEntry e k).entryAt k = none := (entryAt_removeEntry k).trans (if_pos rfl)
  apply h.write (k := k) h.tidy.coherent.removeEntry
  · exact fun j hj => (entryAt_removeEntry j).trans (if_neg hj)
  · intro j hj
    unfold TxState.removeEntry
    simp only [hbuild]
    rw [if_neg (by decide), Policy.readAcl_forget, if_neg hj]
  · rfl
  · rw [hself]
    exact hk
  · exact fun hne => absurd hself hne
  · exact fun hne => absurd hself hne

/-- Adding or replacing a link of a directory. -/
theorem allowed_link (h : Underway e n s t) {m : SortedMap Str AKey} {name : Str} {c : AKey}
    (hp : t.entryAt p = some (.dir m)) (hmodify : s.entryAt p ≠ none → Granted e s p .modify)
    (hlost : ∀ c', s.linkAt p name = some c' → s.entryAt c' ≠ none → Granted e s c' .delete) :
    Allowed e s p (some (.dir (m.insert name c))) where
  removed _ hnone := by cases hnone
  unlinked name' c' hc' hs hne := by
    by_cases hname : name' = name
    · subst hname
      exact hlost c' hc' hs
    · apply (h.allowed p).unlinked name' c' hc' hs
      rw [hp]
      change (m.insert name c).get name' ≠ some c' at hne
      rwa [SortedMap.get_insert_ne _ _ hname] at hne
  edited b c' hb _ _ := hmodify (by rw [hb]; exact Option.some_ne_none _)
  linked _ _ _ _ := by
    by_cases hs : s.entryAt p = none
    · exact .inl hs
    · exact .inr (hmodify hs)
  kind c' c'' hc' hc'' := by
    cases hc''
    exact (h.allowed p).kind c' (.dir m) hc' hp

/-- Removing a link of a directory. -/
theorem allowed_unlink (h : Underway e n s t) {m : SortedMap Str AKey} {name : Str}
    (hp : t.entryAt p = some (.dir m))
    (hlost : ∀ c', s.linkAt p name = some c' → s.entryAt c' ≠ none → Granted e s c' .delete) :
    Allowed e s p (some (.dir (m.erase name))) where
  removed _ hnone := by cases hnone
  unlinked name' c' hc' hs hne := by
    by_cases hname : name' = name
    · subst hname
      exact hlost c' hc' hs
    · apply (h.allowed p).unlinked name' c' hc' hs
      rw [hp]
      change (m.erase name).get name' ≠ some c' at hne
      rwa [SortedMap.get_erase_ne _ hname] at hne
  edited b c' hb hc' _ := by
    cases (h.allowed p).kind _ _ hb hp
  linked name' c' hc' hne := by
    apply (h.allowed p).linked name' c' _ hne
    rw [hp]
    change (m.erase name).get name' = some c' at hc'
    rw [SortedMap.get_erase] at hc'
    split at hc'
    · cases hc'
    · exact hc'
  kind c' c'' hc' hc'' := by
    cases hc''
    exact (h.allowed p).kind c' (.dir m) hc' hp

/-- An edit of a directory's children that the lists allow. -/
theorem editDir (h : Underway e n s t) {edit : SortedMap Str AKey → SortedMap Str AKey}
    (hp : t.entryAt p ≠ none)
    (hedit : ∀ m, t.entryAt p = some (.dir m) → Allowed e s p (some (.dir (edit m)))) :
    Underway e n s ((ArborDb.editDir p edit).run e t).2 := by
  have hne : ∀ j, j ≠ p → ((ArborDb.editDir p edit).run e t).2.entryAt j = t.entryAt j :=
    fun j hj => editDir_entryAt_ne edit hj
  have hentry := fun m (hm : t.entryAt p = some (.dir m)) => editDir_entryAt (e := e) edit hm
  set t₁ : TxState := { t with buffer := t.buffer.bumpStructure } with ht₁
  have h₁ : Underway e n s t₁ := h.bump
  have hrun : (ArborDb.editDir p edit).run e t = Prog.next e
      (fun m => Prog.inspect (fun _ s => .ok s.buffer.buffering) >>= fun buffering =>
        if buffering then modify (fun _ s => { s with buffer := s.buffer.dirPut p (edit m) }) fun _ _ => rfl
        else putDir p (edit m)) (dirChildren e t₁ p, t₁) := rfl
  rw [hrun] at hne hentry ⊢
  cases hm : dirChildren e t₁ p with
  | error _ => exact h₁
  | ok m =>
    rw [hm, Prog.next_ok, Prog.run_bind, Prog.run_inspect, Prog.next_ok] at hne hentry
    rw [Prog.next_ok, Prog.run_bind, Prog.run_inspect, Prog.next_ok]
    -- The children that were read are the directory's.
    have hdir : t₁.entryAt p = some (.dir m) := h₁.tidy.coherent.entryAt_of_dirChildren hp hm
    have hallowed : ∀ t' : TxState, t'.entryAt p = some (.dir m) ∨ t'.entryAt p = some (.dir (edit m)) →
        Allowed e s p (t'.entryAt p) := by
      intro t' ht'
      rcases ht' with ht' | ht'
      · rw [ht', ← hdir]
        exact h.allowed p
      · rw [ht']
        exact hedit m hdir
    specialize hentry m hdir
    split at hne <;> rename_i hon
    · rw [if_pos hon] at hentry ⊢
      apply h₁.write (k := p) (h₁.tidy.coherent.dirPut hon ?_) hne (fun _ _ => rfl) rfl
      · exact hallowed _ hentry
      · exact fun _ => h₁.list_of_kept hp rfl
      · exact fun _ i hi hn => h.not_future hp hi hn
      · exact h₁.tidy.coherent.data_of_dir hdir
    · rw [if_neg hon] at hentry ⊢
      have hoff : t₁.buffer.buffering = false := by simpa using hon
      have hput : ((putDir p (edit m)).run e t₁).2 = t₁.putEntry e p (.dir (edit m)) := if_neg hon
      rw [hput] at hne hentry ⊢
      apply h₁.write (k := p) (h₁.tidy.coherent.putEntry (h₁.tidy.coherent.off hoff p).1) hne
      · intro j hj
        rw [readAcl_putEntry, if_neg hj]
      · rfl
      · exact hallowed _ hentry
      · intro _
        apply h₁.list_of_kept hp
        rw [readAcl_putEntry, if_pos rfl, h₁.list_kept hp]
      · exact fun _ i hi hn => h.not_future hp hi hn

theorem editDir_present (h : Underway e n s t) (edit : SortedMap Str AKey → SortedMap Str AKey)
    {j : AKey} (hj : t.entryAt j ≠ none) : ((ArborDb.editDir p edit).run e t).2.entryAt j ≠ none := by
  by_cases hjp : j = p
  · subst hjp
    cases hentry : t.entryAt j with
    | none => exact absurd hentry hj
    | some c =>
      rcases c with b | m
      · have hfail : ∀ m, dirChildren e { t with buffer := t.buffer.bumpStructure } j ≠ .ok m := by
          intro m hm
          have hdir := h.bump.tidy.coherent.entryAt_of_dirChildren hj hm
          cases hentry.symm.trans hdir
        have hsame : ((ArborDb.editDir j edit).run e t).2 =
            { t with buffer := t.buffer.bumpStructure } := by
          change (Prog.next e _ (dirChildren e { t with buffer := t.buffer.bumpStructure } j, _)).2 = _
          cases hm : dirChildren e { t with buffer := t.buffer.bumpStructure } j with
          | error _ => rfl
          | ok m => exact absurd hm (hfail m)
        rw [hsame]
        exact hj
      · rcases editDir_entryAt (e := e) edit hentry with hnew | hnew
        · rw [hnew]
          exact Option.some_ne_none _
        · rw [hnew]
          exact Option.some_ne_none _
  · rw [editDir_entryAt_ne edit hjp]
    exact hj

/-- A flush keeps the lists of what it writes. -/
theorem flushed (h : Underway e n s t) (buffering : Bool) : Underway e n s (t.flushed e buffering) := by
  have hentry : ∀ k, (t.flushed e buffering).entryAt k = t.entryAt k := entryAt_flushed buffering
  have hacl : ∀ k, (t.flushed e buffering).inodes.readAcl k = t.inodes.readAcl k := by
    rw [TxState.flushed_eq]
    have hpending : ∀ x ∈ t.buffer.pending, (t.inodes.readAcl x.1).or (e.ownAcl x.1) =
        t.inodes.readAcl x.1 := by
      intro x hx
      apply h.list_kept
      intro hnone
      obtain ⟨hf, hd, _⟩ := entryAt_none hnone
      rcases WriteBuffer.mem_pending.1 (List.mem_map_of_mem hx) with hheld | hheld
      · exact hheld hd
      · exact hheld hf
    suffices hall : ∀ (entries : List (AKey × Entry)) (t' : TxState),
        (∀ x ∈ entries, (t.inodes.readAcl x.1).or (e.ownAcl x.1) = t.inodes.readAcl x.1) →
        (∀ k, t'.inodes.readAcl k = t.inodes.readAcl k) →
        ∀ k, (t'.putAll e entries).inodes.readAcl k = t.inodes.readAcl k from
      hall _ _ hpending fun _ => rfl
    intro entries
    induction entries with
    | nil => exact fun t' _ ht' => ht'
    | cons x entries ih =>
      intro t' hx ht'
      apply ih (t'.putEntry e x.1 x.2) fun y hy => hx y (List.mem_cons_of_mem x hy)
      intro k
      rw [readAcl_putEntry]
      split
      · rename_i hk
        rw [ht', hx x List.mem_cons_self, hk]
      · exact ht' k
  have hheld : ∀ k, ¬ (t.flushed e buffering).buffer.Holds k := by
    rw [TxState.flushed_eq]
    exact putAll_buffer _ fun _ hheld => hheld.elim (absurd rfl) (absurd rfl)
  have hclean : ∀ k, (t.flushed e buffering).buffer.dirs.get k = none ∧
      (t.flushed e buffering).buffer.files.get k = none := by
    intro k
    have hk := hheld k
    unfold WriteBuffer.Holds at hk
    rwa [not_or, not_not, not_not] at hk
  refine ⟨⟨⟨?_, ?_, fun _ => hclean⟩, ?_⟩, ?_, ?_, ?_, ?_⟩
  · intro k b hb
    rw [(hclean k).2] at hb
    cases hb
  · intro k m hm
    rw [(hclean k).1] at hm
    cases hm
  · intro k hroot hk
    rw [hacl]
    rw [hentry] at hk
    exact h.tidy.listed k hroot hk
  · intro k
    rw [hentry]
    exact h.allowed k
  · intro k hs hk
    rw [hacl]
    rw [hentry] at hk
    exact h.acl k hs hk
  · intro i hi hn
    rw [TxState.flushed_drawn] at hi
    rw [hentry]
    exact h.fresh i hi hn
  · rw [TxState.flushed_drawn]
    exact h.since

end Underway

end ArborDb
