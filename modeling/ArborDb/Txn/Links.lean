import ArborDb.Txn.Guard

/-!
# Links and subtrees

What a transaction would commit, read as a graph of a-nodes without verifying anything: the entry of
an a-node, its links, and the a-node that some names lead to. Reads follow the links, and each kind
of write changes the links of one a-node; a copy that succeeds has visited every a-node that the
links of its source lead to.
-/

namespace ArborDb

open Prog (Triple Maintains)

/-! ## Subtrees -/

/-- The entry that a commit would leave an a-node with: an edited file supersedes a buffered
directory, and both the entry of the table. -/
def TxState.entryAt (s : TxState) (k : AKey) : Option Entry :=
  ((s.buffer.files.get k).map .file).or (((s.buffer.dirs.get k).map .dir).or (s.data.get k))

/-- The child of an a-node by name. Nothing is verified. -/
def TxState.linkAt (s : TxState) (k : AKey) (name : Str) : Option AKey :=
  match s.entryAt k with
  | some (.dir children) => children.get name
  | _ => none

/-- The a-node that some names lead to. -/
def TxState.follow (s : TxState) : AKey → List Str → Option AKey
  | k, [] => some k
  | k, name :: names => (s.linkAt k name).bind (s.follow · names)

section Subtrees

variable {e : Env} {n d : Nat} {s t : TxState} {k : AKey}

theorem TxState.follow_append (s : TxState) (k : AKey) (names rest : List Str) :
    s.follow k (names ++ rest) = (s.follow k names).bind (s.follow · rest) := by
  induction names generalizing k with
  | nil => rfl
  | cons name names ih =>
    simp only [List.cons_append, follow]
    cases s.linkAt k name with
    | none => rfl
    | some c => exact ih c

theorem entryAt_of_linkAt {name : Str} {c : AKey} (h : s.linkAt k name = some c) :
    ∃ m, s.entryAt k = some (.dir m) ∧ m.get name = some c := by
  unfold TxState.linkAt at h
  split at h
  · exact ⟨_, ‹_›, h⟩
  · cases h

theorem entryAt_dir {m : SortedMap Str AKey} (h : s.entryAt k = some (.dir m)) :
    s.buffer.files.get k = none ∧ (s.buffer.dirs.get k = some m ∨
      s.buffer.dirs.get k = none ∧ s.data.get k = some (.dir m)) := by
  unfold TxState.entryAt at h
  cases hf : s.buffer.files.get k with
  | some blob =>
    rw [hf] at h
    cases h
  | none =>
    refine ⟨rfl, ?_⟩
    rw [hf] at h
    cases hd : s.buffer.dirs.get k with
    | some m' =>
      rw [hd] at h
      cases h
      exact .inl rfl
    | none =>
      rw [hd] at h
      exact .inr ⟨rfl, h⟩

theorem readTable_of_data {entry : Entry} {o : Option Entry} (hdata : s.data.get k = some entry)
    (h : readTable e s k = .ok o) : o = some entry := by
  unfold readTable at h
  simp only [hdata] at h
  obtain ⟨_, _, h⟩ := Except.bind_eq_ok.1 h
  cases h
  rfl

/-- A directory's children are read as its links are. -/
theorem dirChildren_of_linkAt {m : SortedMap Str AKey} {name : Str} {c : AKey}
    (h : dirChildren e s k = .ok m) (hlink : s.linkAt k name = some c) : m.get name = some c := by
  obtain ⟨m', hentry, hget⟩ := entryAt_of_linkAt hlink
  obtain ⟨hf, hd | ⟨hd, hdata⟩⟩ := entryAt_dir hentry
  · simp only [dirChildren, WriteBuffer.dirGet_eq, hd] at h
    cases h
    exact hget
  · simp only [dirChildren, readVerified, WriteBuffer.dirGet_eq, WriteBuffer.fileGet_eq, hd, hf] at h
    obtain ⟨o, ho, h⟩ := Except.bind_eq_ok.1 h
    rw [readTable_of_data hdata ho] at h
    cases h
    exact hget

theorem child_of_linkAt {name : Str} {o : Option AKey} {c : AKey} (h : child e s k name = .ok o)
    (hlink : s.linkAt k name = some c) : o = some c := by
  obtain ⟨m', hentry, hget⟩ := entryAt_of_linkAt hlink
  obtain ⟨hf, hd | ⟨hd, hdata⟩⟩ := entryAt_dir hentry
  · simp only [child, WriteBuffer.dirGet_eq, hd] at h
    cases h
    exact hget
  · simp only [child, readVerified, WriteBuffer.dirGet_eq, WriteBuffer.fileGet_eq, hd, hf] at h
    obtain ⟨o, ho, h⟩ := Except.bind_eq_ok.1 h
    rw [readTable_of_data hdata ho] at h
    cases h
    exact hget

/-- An a-node with a link is a directory. -/
theorem kind_of_linkAt {name : Str} {o : Option EntryKind} {c : AKey} (h : kind e s k = .ok o)
    (hlink : s.linkAt k name = some c) : o = some .dir := by
  obtain ⟨m', hentry, _⟩ := entryAt_of_linkAt hlink
  obtain ⟨hf, hd | ⟨hd, hdata⟩⟩ := entryAt_dir hentry
  · simp only [kind, WriteBuffer.dirGet_eq, hd] at h
    cases h
    rfl
  · simp only [kind, readVerified, WriteBuffer.dirGet_eq, WriteBuffer.fileGet_eq, hd, hf] at h
    obtain ⟨o, ho, h⟩ := Except.bind_eq_ok.1 h
    rw [readTable_of_data hdata ho] at h
    cases h
    rfl

/-- An a-node of no kind has no entry. -/
theorem entryAt_of_kind_none (h : kind e s k = .ok none) : s.entryAt k = none := by
  unfold TxState.entryAt
  cases hd : s.buffer.dirs.get k with
  | some m =>
    simp only [kind, WriteBuffer.dirGet_eq, hd] at h
    cases h
  | none =>
    simp only [kind, readVerified, WriteBuffer.dirGet_eq, WriteBuffer.fileGet_eq, hd] at h
    cases hf : s.buffer.files.get k with
    | some blob =>
      rw [hf] at h
      cases h
    | none =>
      rw [hf] at h
      obtain ⟨o, ho, h⟩ := Except.bind_eq_ok.1 h
      cases hdata : s.data.get k with
      | none => rfl
      | some entry =>
        rw [readTable_of_data hdata ho] at h
        cases h

/-- A path is resolved along the links. -/
theorem resolveFrom_of_follow {names : List Str} {o : Option AKey} {a : AKey}
    (h : resolveFrom e s k names = .ok o) (hfollow : s.follow k names = some a) : o = some a := by
  induction names generalizing k with
  | nil =>
    cases h
    exact hfollow
  | cons name names ih =>
    obtain ⟨_, _, h⟩ := Except.bind_eq_ok.1 h
    obtain ⟨found, hfound, h⟩ := Except.bind_eq_ok.1 h
    obtain ⟨c, hc, hfollow⟩ := Option.bind_eq_some_iff.1 hfollow
    rw [child_of_linkAt hfound hc] at h
    exact ih h hfollow

/-! ### What writes change -/

theorem entryAt_congr (hfiles : t.buffer.files.get k = s.buffer.files.get k)
    (hdirs : t.buffer.dirs.get k = s.buffer.dirs.get k) (hdata : t.data.get k = s.data.get k) :
    t.entryAt k = s.entryAt k := by
  unfold TxState.entryAt
  rw [hfiles, hdirs, hdata]

theorem linkAt_congr (h : t.entryAt k = s.entryAt k) (name : Str) : t.linkAt k name = s.linkAt k name := by
  unfold TxState.linkAt
  rw [h]

theorem entryAt_putEntry_ne {j : AKey} (entry : Entry) (hj : j ≠ k) :
    (s.putEntry e k entry).entryAt j = s.entryAt j := by
  refine entryAt_congr ?_ rfl (SortedMap.get_insert_ne _ _ hj)
  exact (WriteBuffer.get_files_fileForget ..).trans (if_neg hj)

theorem entryAt_dirPut_ne {j : AKey} {inodes : InodeTable} (m : SortedMap Str AKey) (hj : j ≠ k) :
    { s with inodes := inodes, buffer := s.buffer.dirPut k m : TxState }.entryAt j = s.entryAt j :=
  entryAt_congr rfl (SortedMap.get_insert_ne _ _ hj) rfl

theorem entryAt_removeEntry (j : AKey) :
    (s.removeEntry e k).entryAt j = if j = k then none else s.entryAt j := by
  have hfiles := WriteBuffer.get_files_forget s.buffer k j
  have hdirs := WriteBuffer.get_dirs_forget s.buffer k j
  have hdata := SortedMap.get_erase s.data k j
  by_cases hj : j = k
  · rw [if_pos hj] at hfiles hdirs hdata ⊢
    unfold TxState.entryAt TxState.removeEntry
    rw [hfiles, hdirs, hdata]
    rfl
  · rw [if_neg hj] at hfiles hdirs hdata ⊢
    exact entryAt_congr hfiles hdirs hdata

theorem putAll_buffer (entries : List (AKey × Entry)) (h : ∀ j, ¬ s.buffer.Holds j) (j : AKey) :
    ¬ (s.putAll e entries).buffer.Holds j := by
  induction entries generalizing s with
  | nil => exact h j
  | cons x entries ih =>
    refine ih fun j hheld => h j (hheld.imp_right fun hfile => ?_)
    change (s.buffer.fileForget x.1).files.get j ≠ none at hfile
    rw [WriteBuffer.get_files_fileForget] at hfile
    split at hfile
    · exact absurd rfl hfile
    · exact hfile

theorem putAll_data_of_not_mem (entries : List (AKey × Entry)) (h : k ∉ entries.map Prod.fst) :
    (s.putAll e entries).data.get k = s.data.get k := by
  induction entries generalizing s with
  | nil => rfl
  | cons x entries ih =>
    rw [List.map_cons, List.mem_cons, not_or] at h
    exact (ih h.2).trans (SortedMap.get_insert_ne _ _ h.1)

theorem putAll_data_of_mem {entry : Entry} (entries : List (AKey × Entry)) (h : (k, entry) ∈ entries)
    (hunique : ∀ c, (k, c) ∈ entries → c = entry) :
    (s.putAll e entries).data.get k = some entry := by
  induction entries generalizing s with
  | nil => cases h
  | cons x entries ih =>
    by_cases hmem : k ∈ entries.map Prod.fst
    · obtain ⟨y, hy, rfl⟩ := List.mem_map.1 hmem
      have hyc : y.2 = entry := hunique y.2 (List.mem_cons_of_mem x hy)
      exact ih (hyc ▸ hy) fun c hc => hunique c (List.mem_cons_of_mem x hc)
    · refine (putAll_data_of_not_mem entries hmem).trans ?_
      rw [List.mem_cons] at h
      obtain h | h := h
      · subst h
        exact SortedMap.get_insert_self _ _ _
      · exact absurd (List.mem_map_of_mem h) hmem

/-- Writing the entries of a map, one by one, updates the table by the map. -/
theorem putAll_map {V : Type} (m : SortedMap AKey V) (f : V → Entry) (k : AKey) :
    (s.putAll e (m.entries.map fun x => (x.1, f x.2))).data.get k =
      ((m.get k).map f).or (s.data.get k) := by
  cases hget : m.get k with
  | some a =>
    refine putAll_data_of_mem _ (List.mem_map.2 ⟨_, SortedMap.get_iff_mem.1 hget, rfl⟩) ?_
    intro c hc
    obtain ⟨x, hx, hxc⟩ := List.mem_map.1 hc
    cases hxc
    rw [SortedMap.get_iff_mem.2 hx] at hget
    cases hget
    rfl
  | none =>
    refine putAll_data_of_not_mem _ ?_
    intro hmem
    rw [List.map_map] at hmem
    obtain ⟨x, hx, rfl⟩ := List.mem_map.1 hmem
    have hsome : m.get x.1 = some x.2 := SortedMap.get_iff_mem.2 hx
    cases hsome.symm.trans hget

/-- A flush leaves every a-node with the entry it had. -/
theorem entryAt_flushed (buffering : Bool) (k : AKey) : (s.flushed e buffering).entryAt k = s.entryAt k := by
  rw [TxState.flushed_eq]
  set s₁ : TxState := { s with buffer := { s.buffer.clear with buffering := buffering } } with hs₁
  have hheld : ¬ (s₁.putAll e s.buffer.pending).buffer.Holds k :=
    putAll_buffer _ (fun _ h => h.elim (absurd rfl) (absurd rfl)) k
  unfold WriteBuffer.Holds at hheld
  rw [not_or, not_not, not_not] at hheld
  have hdata : (s₁.putAll e s.buffer.pending).data.get k = s.entryAt k := by
    unfold WriteBuffer.pending TxState.putAll
    rw [List.foldl_append]
    exact (putAll_map s.buffer.files .file k).trans
      (congrArg _ (putAll_map s.buffer.dirs .dir k))
  conv_lhs => unfold TxState.entryAt
  rw [hheld.1, hheld.2]
  exact hdata

end Subtrees

/-! ## Copies -/

/-- Every link of `s` is one of `t`. -/
def Grown (s t : TxState) : Prop :=
  ∀ k name c, s.linkAt k name = some c → t.linkAt k name = some c

/-- Every link of `s` is one of `t`, unless its a-node is gone. -/
def Outlives (s t : TxState) : Prop :=
  ∀ k name c, s.linkAt k name = some c → t.entryAt k = none ∨ t.linkAt k name = some c

section Copies

variable {e : Env} {n d : Nat} {s t : TxState} {k : AKey}

theorem Grown.outlives (h : Grown s t) : Outlives s t := fun k name c hc => .inr (h k name c hc)

theorem Grown.follow (h : Grown s t) {names : List Str} {a : AKey} (hfollow : s.follow k names = some a) :
    t.follow k names = some a := by
  induction names generalizing k with
  | nil => exact hfollow
  | cons name names ih =>
    obtain ⟨c, hc, hfollow⟩ := Option.bind_eq_some_iff.1 hfollow
    exact Option.bind_eq_some_iff.2 ⟨c, h k name c hc, ih hfollow⟩

/-- A write of an a-node that has no link in `s`. -/
theorem Grown.write {t' : TxState} (h : Grown s t) (hk : ∀ name, s.linkAt k name = none)
    (hne : ∀ j, j ≠ k → t'.entryAt j = t.entryAt j) : Grown s t' := by
  intro j name c hc
  have hjk : j ≠ k := by
    intro hjk
    rw [hjk, hk] at hc
    cases hc
  rw [linkAt_congr (hne j hjk)]
  exact h j name c hc

theorem Outlives.write {t' : TxState} (h : Outlives s t) (hk : ∀ name, s.linkAt k name = none)
    (hne : ∀ j, j ≠ k → t'.entryAt j = t.entryAt j) : Outlives s t' := by
  intro j name c hc
  have hjk : j ≠ k := by
    intro hjk
    rw [hjk, hk] at hc
    cases hc
  rw [linkAt_congr (hne j hjk), hne j hjk]
  exact h j name c hc

theorem linkAt_of_entryAt_none (h : s.entryAt k = none) (name : Str) : s.linkAt k name = none := by
  unfold TxState.linkAt
  rw [h]

theorem putDir_entryAt_ne (m : SortedMap Str AKey) {j : AKey} (hj : j ≠ k) :
    ((putDir k m).run e s).2.entryAt j = s.entryAt j := by
  change (if s.buffer.buffering then _ else _ : TxState).entryAt j = _
  split
  · exact entryAt_dirPut_ne m hj
  · exact entryAt_putEntry_ne _ hj

theorem editDir_entryAt_ne (edit : SortedMap Str AKey → SortedMap Str AKey) {j : AKey} (hj : j ≠ k) :
    ((editDir k edit).run e s).2.entryAt j = s.entryAt j := by
  change (Prog.next e _ (.ok (), { s with buffer := s.buffer.bumpStructure })).2.entryAt j = _
  rw [Prog.next_ok, Prog.run_bind, Prog.run_inspect]
  cases dirChildren e { s with buffer := s.buffer.bumpStructure } k with
  | error _ => rfl
  | ok m =>
    rw [Prog.next_ok, Prog.run_bind, Prog.run_inspect, Prog.next_ok]
    split
    · exact entryAt_dirPut_ne _ hj
    · exact putDir_entryAt_ne _ hj

/-- An edited directory has the children it had, or the edited ones. -/
theorem editDir_entryAt (edit : SortedMap Str AKey → SortedMap Str AKey) {m : SortedMap Str AKey}
    (h : s.entryAt k = some (.dir m)) :
    ((editDir k edit).run e s).2.entryAt k = some (.dir m) ∨
      ((editDir k edit).run e s).2.entryAt k = some (.dir (edit m)) := by
  set s₁ : TxState := { s with buffer := s.buffer.bumpStructure } with hs₁
  change (Prog.next e _ (.ok (), s₁)).2.entryAt k = _ ∨ (Prog.next e _ (.ok (), s₁)).2.entryAt k = _
  rw [Prog.next_ok, Prog.run_bind, Prog.run_inspect]
  obtain ⟨hfile, hdir⟩ := entryAt_dir h
  cases hm : dirChildren e s₁ k with
  | error _ => exact .inl h
  | ok m' =>
    have hm' : m' = m := by
      simp only [dirChildren, readVerified, WriteBuffer.dirGet_eq, WriteBuffer.fileGet_eq] at hm
      rw [show s₁.buffer.files.get k = none from hfile] at hm
      obtain hdir | ⟨hdir, hdata⟩ := hdir
      · rw [show s₁.buffer.dirs.get k = some m from hdir] at hm
        cases hm
        rfl
      · rw [show s₁.buffer.dirs.get k = none from hdir] at hm
        obtain ⟨o, ho, hm⟩ := Except.bind_eq_ok.1 hm
        rw [readTable_of_data (s := s₁) hdata ho] at hm
        cases hm
        rfl
    subst hm'
    rw [Prog.next_ok, Prog.run_bind, Prog.run_inspect, Prog.next_ok]
    split
    · right
      change ((s.buffer.files.get k).map Entry.file).or
        ((((s.buffer.dirs.insert k (edit m')).get k).map Entry.dir).or _) = _
      rw [hfile, SortedMap.get_insert_self]
      rfl
    · rename_i hoff
      change (if s₁.buffer.buffering then _ else _ : TxState).entryAt k = _ ∨
        (if s₁.buffer.buffering then _ else _ : TxState).entryAt k = _
      rw [if_neg hoff]
      unfold TxState.entryAt TxState.putEntry
      simp only
      rw [WriteBuffer.get_files_fileForget, if_pos rfl, SortedMap.get_insert_self]
      obtain hdir | ⟨hdir, _⟩ := hdir
      · left
        rw [show (s₁.buffer.fileForget k).dirs.get k = some m' from hdir]
        rfl
      · right
        rw [show (s₁.buffer.fileForget k).dirs.get k = none from hdir]
        rfl

/-- An added link keeps the other links of its directory. -/
theorem grown_linkChild {name : Str} {c : AKey} (hname : s.linkAt k name = none) :
    Maintains e n (Grown s) (linkChild k name c) := by
  intro t ht _ j name' a ha
  have hold := ht j name' a ha
  by_cases hj : j = k
  · subst hj
    obtain ⟨m, hm, hget⟩ := entryAt_of_linkAt hold
    unfold linkChild TxState.linkAt
    obtain hnew | hnew := editDir_entryAt (e := e) (fun children => children.insert name c) hm
    · rw [hnew]
      exact hget
    · have hne : name' ≠ name := by
        intro hne
        rw [hne, hname] at ha
        cases ha
      rw [hnew]
      exact (SortedMap.get_insert_ne _ _ hne).trans hget
  · rw [← hold]
    exact linkAt_congr (editDir_entryAt_ne _ hj) name'

/-- A drawn key is one of the keys from the `d`-th on. -/
theorem maintains_generate {α : Type} {I : TxState → Prop} {f : AKey → TxM α}
    (hdraw : ∀ t, I t → I { t with drawn := t.drawn + 1 })
    (h : ∀ i, d ≤ i → i < n → Maintains e n (fun t => I t ∧ d ≤ t.drawn) (f (e.gen i))) :
    Maintains e n (fun t => I t ∧ d ≤ t.drawn) (generate >>= f) := by
  intro t ht hn
  have hlt : t.drawn < n := (Prog.drawn_le (f (e.gen t.drawn)) e _).trans hn
  exact h t.drawn ht.2 hlt { t with drawn := t.drawn + 1 }
    ⟨hdraw t ht.1, Nat.le_succ_of_le ht.2⟩ hn

section Fresh

variable (hfresh : ∀ i, d ≤ i → i < n → s.entryAt (e.gen i) = none)
include hfresh

/-- Every directory that `ensureDir` writes gains a link or is new. -/
theorem grown_ensureDir (path : APath) :
    Maintains e n (fun t => Grown s t ∧ d ≤ t.drawn) (ensureDir path) := by
  have hroot : Maintains e n (fun t => Grown s t ∧ d ≤ t.drawn) ensureRoot := by
    refine Maintains.and ?_ (Maintains.drawn_le d _)
    intro t ht _
    unfold ensureRoot
    rw [Prog.run_bind, Prog.run_inspect, Prog.next_ok]
    split
    · exact ht
    · rename_i habsent
      simp only [hasEntry, WriteBuffer.dirGet_eq, SortedMap.contains, Bool.or_eq_true, not_or,
        Bool.not_eq_true, Option.isSome_eq_false_iff, Option.isNone_iff_eq_none] at habsent
      have hlinks : ∀ name, t.linkAt .root name = none := by
        intro name
        unfold TxState.linkAt TxState.entryAt
        rw [habsent.1, habsent.2]
        cases t.buffer.files.get .root <;> rfl
      refine ht.write (k := .root) ?_ fun j hj => putDir_entryAt_ne _ hj
      intro name
      by_contra hne
      obtain ⟨c, hc⟩ := Option.ne_none_iff_exists'.1 hne
      cases (hlinks name).symm.trans (ht .root name c hc)
  have hfrom : ∀ names k, Maintains e n (fun t => Grown s t ∧ d ≤ t.drawn)
      (ensureDirFrom k names) := by
    intro names
    induction names with
    | nil => exact fun k => Maintains.pure k
    | cons name names ih =>
      intro k
      refine Maintains.guard fun _ => Maintains.inspect fun t found ht hfound => ?_
      cases found with
      | some c =>
        refine Maintains.guard fun kind => ?_
        split
        · exact Maintains.fail _
        · exact ih c
      | none =>
        have hname : s.linkAt k name = none := by
          by_contra hne
          obtain ⟨c, hc⟩ := Option.ne_none_iff_exists'.1 hne
          cases child_of_linkAt hfound (ht.1 k name c hc)
        refine Maintains.guard fun _ => maintains_generate (fun _ ht => ht) fun i hi hn => ?_
        have hnew := linkAt_of_entryAt_none (hfresh i hi hn)
        have hput : Maintains e n (Grown s) (putDir (e.gen i) .empty) :=
          fun t' ht' _ => ht'.write hnew fun j hj => putDir_entryAt_ne _ hj
        refine (hput.and (Maintains.drawn_le d _)).bind fun _ => ?_
        exact ((grown_linkChild hname).and (Maintains.drawn_le d _)).bind fun _ => ih _
  exact hroot.bind fun _ => hfrom path.names .root

end Fresh

theorem outlives_cascadeDelete (fuel : Nat) (k : AKey) :
    Maintains e n (Outlives s) (cascadeDelete fuel k) := by
  induction fuel generalizing k with
  | zero => exact Maintains.fail _
  | succ fuel ih =>
    refine Maintains.guard fun children => ?_
    cases children with
    | none => exact Maintains.pure _
    | some children =>
      refine (Maintains.forEach fun c _ => ih c).bind fun _ => Maintains.modify ?_
      intro t ht j name c hc
      have hentry := entryAt_removeEntry (e := e) (s := t) (k := k) j
      by_cases hj : j = k
      · rw [if_pos hj] at hentry
        exact .inl hentry
      · rw [if_neg hj] at hentry
        rw [linkAt_congr hentry, hentry]
        exact ht j name c hc

theorem outlives_clearSlot (parent : AKey) (name : Str) :
    Maintains e n (Outlives s) (clearSlot parent name) := by
  refine Maintains.guard fun found => ?_
  cases found with
  | none => exact Maintains.pure _
  | some existing =>
    refine Maintains.guard fun _ => Maintains.guard fun size => ?_
    exact outlives_cascadeDelete (size + 1) existing

theorem entryAt_of_kind_some {x : EntryKind} (h : kind e s k = .ok (some x)) : s.entryAt k ≠ none := by
  intro hnone
  unfold TxState.entryAt at hnone
  simp only [Option.or_eq_none_iff, Option.map_eq_none_iff] at hnone
  obtain ⟨hf, hd, hdata⟩ := hnone
  simp only [kind, readVerified, readTable, WriteBuffer.dirGet_eq, WriteBuffer.fileGet_eq, hf, hd,
    hdata] at h
  cases h

/-- A link of an a-node that is still there. -/
theorem Outlives.link {x : EntryKind} (h : Outlives s t) (hkind : kind e t k = .ok (some x))
    {name : Str} {c : AKey} (hc : s.linkAt k name = some c) : t.linkAt k name = some c :=
  (h k name c hc).resolve_left (entryAt_of_kind_some hkind)

/-! ### Visits -/

/-- The assertion survives the drawing of keys, and writes under the keys from the `d`-th on. -/
structure CopySafe (e : Env) (n d : Nat) (I : TxState → Prop) : Prop where
  draw : ∀ {t}, I t → I { t with drawn := t.drawn + 1 }
  put : ∀ {i entry}, d ≤ i → i < n → Maintains e n I (putEntry (e.gen i) entry)
  putDir : ∀ {i m}, d ≤ i → i < n → Maintains e n I (putDir (e.gen i) m)

section Visits

variable {I : TxState → Prop} {C : AKey → Prop}
  (hfresh : ∀ i, d ≤ i → i < n → s.entryAt (e.gen i) = none) (hI : CopySafe e n d I)
  (hvisit : ∀ {t k x}, I t → check e t k .access = .ok () → kind e t k = .ok (some x) → C k)
include hfresh hI hvisit

omit hI hvisit in
/-- A write under a key drawn during the copy. -/
theorem visits_put {i : Nat} (hi : d ≤ i) (hn : i < n) {m : TxM Unit}
    (hm : ∀ t j, j ≠ e.gen i → (m.run e t).2.entryAt j = t.entryAt j) (hput : Maintains e n I m) :
    Triple e n (fun t => (I t ∧ d ≤ t.drawn) ∧ Outlives s t) m
      (fun _ t => (I t ∧ d ≤ t.drawn) ∧ Outlives s t) (fun _ _ => True) := by
  refine Maintains.triple ((hput.and (Maintains.drawn_le d m)).and fun t ht _ => ?_)
  exact ht.write (linkAt_of_entryAt_none (hfresh i hi hn)) (hm t)

/-- A copy that succeeds has visited every a-node that the links of `s` lead to. -/
theorem deepCopy_visits (fuel : Nat) (k : AKey) :
    Triple e n (fun t => (I t ∧ d ≤ t.drawn) ∧ Outlives s t) (deepCopy fuel k)
      (fun _ t => ((I t ∧ d ≤ t.drawn) ∧ Outlives s t) ∧ ∀ names a, s.follow k names = some a → C a)
      (fun _ _ => True) := by
  induction fuel generalizing k with
  | zero => exact Triple.fail fun _ _ => trivial
  | succ fuel ih =>
    refine Triple.inspect (fun _ _ _ _ => trivial) fun _ => ?_
    refine Triple.bind (R := fun fresh t => (((I t ∧ d ≤ t.drawn) ∧ Outlives s t) ∧
      check e t k .access = .ok ()) ∧ ∃ i, d ≤ i ∧ i < n ∧ fresh = e.gen i) ?_ fun fresh => ?_
    · intro t ht hn
      obtain ⟨⟨⟨ht, hd⟩, hout⟩, hcheck⟩ := ht
      exact ⟨⟨⟨⟨hI.draw ht, Nat.le_succ_of_le hd⟩, hout⟩, hcheck⟩, t.drawn, hd, hn, rfl⟩
    refine Triple.of_pre (fun _ ht => ht.2) fun ⟨i, hi, hn, hi'⟩ => ?_
    subst hi'
    refine Triple.inspect (fun _ _ _ _ => trivial) fun found => ?_
    -- What the read of the kind tells: the a-node is visited, and its links are still there.
    refine Triple.of_pre (p := found ≠ none → C k ∧ (found = some .file → ∀ name, s.linkAt k name = none))
      ?_ fun hfound => ?_
    · intro t ht hne
      obtain ⟨x, rfl⟩ := Option.ne_none_iff_exists'.1 hne
      obtain ⟨⟨⟨⟨⟨ht, _⟩, hout⟩, hcheck⟩, _⟩, hkind⟩ := ht
      refine ⟨hvisit ht hcheck hkind, ?_⟩
      intro hfile name
      cases hfile
      by_contra hne
      obtain ⟨c, hc⟩ := Option.ne_none_iff_exists'.1 hne
      cases kind_of_linkAt hkind (hout.link hkind hc)
    match found with
    | none => exact Triple.fail fun _ _ => trivial
    | some .file =>
      obtain ⟨hk, hlinks⟩ := hfound (Option.some_ne_none _)
      refine Triple.guard (fun _ _ _ => trivial) fun entry => ?_
      cases entry with
      | none => exact Triple.fail fun _ _ => trivial
      | some entry =>
        refine Triple.pre ?_ fun _ ht => ht.1.1.1
        refine Triple.bind (visits_put hfresh hi hn (fun t j hj => entryAt_putEntry_ne entry hj)
          (hI.put hi hn)) fun _ => ?_
        refine Triple.pure fun t ht => ⟨ht, ?_⟩
        intro names a hfollow
        cases names with
        | nil =>
          cases hfollow
          exact hk
        | cons name names =>
          obtain ⟨c, hc, _⟩ := Option.bind_eq_some_iff.1 hfollow
          rw [hlinks rfl name] at hc
          cases hc
    | some .dir =>
      obtain ⟨hk, _⟩ := hfound (Option.some_ne_none _)
      refine Triple.inspect (fun _ _ _ _ => trivial) fun children => ?_
      refine Triple.of_pre (p := ∀ name c, s.linkAt k name = some c → (name, c) ∈ children.entries)
        ?_ fun hchildren => ?_
      · intro t ht name c hc
        obtain ⟨⟨⟨⟨⟨_, hout⟩, _⟩, _⟩, hkind⟩, hm⟩ := ht
        exact SortedMap.get_iff_mem.1 (dirChildren_of_linkAt hm (hout.link hkind hc))
      refine Triple.pre ?_ fun _ ht => ht.1.1.1.1
      have hcopy : ∀ l copied, Triple e n (fun t => (I t ∧ d ≤ t.drawn) ∧ Outlives s t)
          (copyChildren (deepCopy fuel) l copied)
          (fun _ t => ((I t ∧ d ≤ t.drawn) ∧ Outlives s t) ∧
            ∀ x ∈ l, ∀ names a, s.follow x.2 names = some a → C a) (fun _ _ => True) := by
        intro l
        induction l with
        | nil => exact fun copied => Triple.pure fun t ht => ⟨ht, nofun⟩
        | cons x l ihl =>
          intro copied
          refine Triple.bind (ih x.2) fun fresh => ?_
          refine Triple.of_pre (fun _ ht => ht.2) fun hx => ?_
          refine ((ihl _).pre fun _ ht => ht.1).post ?_
          intro _ t ht
          exact ⟨ht.1, List.forall_mem_cons.2 ⟨hx, ht.2⟩⟩
      refine Triple.bind (hcopy _ _) fun copied => ?_
      refine Triple.of_pre (fun _ ht => ht.2) fun hvisited => Triple.pre ?_ fun _ ht => ht.1
      refine Triple.bind (visits_put hfresh hi hn (fun t j hj => putDir_entryAt_ne copied hj)
        (hI.putDir hi hn)) fun _ => ?_
      refine Triple.pure fun t ht => ⟨ht, ?_⟩
      intro names a hfollow
      cases names with
      | nil =>
        cases hfollow
        exact hk
      | cons name names =>
        obtain ⟨c, hc, hfollow⟩ := Option.bind_eq_some_iff.1 hfollow
        exact hvisited _ (hchildren name c hc) names a hfollow

/-- A copy that succeeds has visited every a-node of its source. -/
theorem cpInto_visits (src dst : APath) (hensure : ∀ path, Maintains e n I (ensureDir path))
    (hclear : ∀ parent name, Maintains e n I (clearSlot parent name)) :
    Triple e n (fun t => (I t ∧ d ≤ t.drawn) ∧ Grown s t) (cpInto src dst)
      (fun _ _ => ∀ a, s.follow .root src.names = some a →
        ∀ names k, s.follow a names = some k → C k) (fun _ _ => True) := by
  refine Triple.guard (fun _ _ _ => trivial) fun split => ?_
  refine Triple.inspect (fun _ _ _ _ => trivial) fun found => ?_
  refine Triple.of_pre (p := ∀ a, s.follow .root src.names = some a → found = some a) ?_ fun hsrc => ?_
  · intro t ht a ha
    exact resolveFrom_of_follow ht.2 (ht.1.2.follow ha)
  cases found with
  | none => exact Triple.fail fun _ _ => trivial
  | some akey =>
    have hgrown : Maintains e n (fun t => (I t ∧ d ≤ t.drawn) ∧ Grown s t) (ensureDir split.1) :=
      fun t ht hn => ⟨⟨hensure split.1 t ht.1.1 hn, Maintains.drawn_le d _ t ht.1.2 hn⟩,
        (grown_ensureDir hfresh split.1 t ⟨ht.2, ht.1.2⟩ hn).1⟩
    refine Triple.bind (hgrown.triple.pre fun _ ht => ht.1) fun dstParent => ?_
    refine Triple.guard (fun _ _ _ => trivial) fun _ => ?_
    have hslot := ((hclear dstParent split.2).and (Maintains.drawn_le d _)).and
      (outlives_clearSlot (s := s) (e := e) (n := n) dstParent split.2)
    refine Triple.bind (hslot.triple.pre fun _ ht => ⟨ht.1, ht.2.outlives⟩) fun _ => ?_
    refine Triple.bind (R := fun _ _ => ∀ names a, s.follow akey names = some a → C a) ?_ fun copy => ?_
    · refine Triple.guard (fun _ _ _ => trivial) fun size => ?_
      exact (deepCopy_visits hfresh hI hvisit (size + 1) akey).post fun _ _ ht => ht.2
    · refine Triple.of_pre (fun _ ht => ht) fun hvisited => Triple.const ?_
      intro a ha
      cases hsrc a ha
      exact hvisited

end Visits

/-- A copy that succeeds has visited every a-node of its source, however the table is indexed. -/
theorem cp_visits [Externals] {I : TxState → Prop} {C : AKey → Prop} {indexes : List IndexEntry}
    {src dst : APath} (hfresh : ∀ i, d ≤ i → i < n → s.entryAt (e.gen i) = none)
    (hI : CopySafe e n d I)
    (hvisit : ∀ {t k x}, I t → check e t k .access = .ok () → kind e t k = .ok (some x) → C k)
    (hunindexed : Unindexed I) (hflush : Maintains e n I flushAndDisable)
    (hensure : ∀ path, Maintains e n I (ensureDir path))
    (hclear : ∀ parent name, Maintains e n I (clearSlot parent name)) :
    Triple e n (fun t => (I t ∧ d ≤ t.drawn) ∧ Grown s t) (cp indexes src dst)
      (fun _ _ => ∀ names k, s.follow .root (src.names ++ names) = some k → C k) (fun _ _ => True) := by
  set J : TxState → Prop := fun t => (I t ∧ d ≤ t.drawn) ∧ Grown s t with hJ
  have hinto := (cpInto_visits hfresh hI hvisit src dst hensure hclear).post
    (Q := fun _ _ => ∀ names k, s.follow .root (src.names ++ names) = some k → C k) ?_
  · have hgrown : Maintains e n J flushAndDisable := by
      intro t ht htn
      refine ⟨⟨hflush t ht.1.1 htn, Maintains.drawn_le d _ t ht.1.2 htn⟩, ?_⟩
      intro j name c hc
      rw [linkAt_congr (t := (flushAndDisable.run e t).2) (entryAt_flushed false j)]
      exact ht.2 j name c hc
    have hindex : Unindexed J := fun t index ht => ⟨⟨hunindexed t index ht.1.1, ht.1.2⟩, ht.2⟩
    unfold cp
    split_ifs
    · exact Triple.fail fun _ _ => trivial
    · exact Triple.fail fun _ _ => trivial
    · unfold reindexAround
      split
      · exact hinto
      · refine Triple.bind hgrown.triple fun _ => ?_
        refine Triple.bind (R := fun _ => J) ?_ fun _ => ?_
        · refine Triple.forEach_keeps fun scope _ => ?_
          exact (deleteEntries_keeps hindex).consequence (fun _ h => h) (fun _ _ h => h)
            fun _ _ _ => trivial
        · refine Triple.bind hinto fun _ => Triple.of_pre (fun _ h => h) fun h => ?_
          exact Triple.const h
  · intro _ _ h names k hk
    rw [TxState.follow_append] at hk
    obtain ⟨a, ha, hk⟩ := Option.bind_eq_some_iff.1 hk
    exact h a ha names k hk

end Copies

end ArborDb
