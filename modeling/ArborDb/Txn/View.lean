import ArborDb.Txn.Table

/-!
# What a transaction sees

`observe` is the verified read of one a-node through the buffer: every read of the context is a
function of it, and every write changes it at one key. `Sees P n v s` says that the state `s` shows
the store `v`: each a-node reads as `v` has it, the buffer is coherent with the table, the keys
generated from now up to the `n`-th are unused, and the inodes meet the policy `P`. The programs of
the context are specified over it, whether they buffer or write through.
-/

namespace ArborDb

/-- The a-nodes of a table, by key. -/
abbrev View := AKey → Option Entry

/-! ## Observation -/

/-- What a verified read of an a-node returns. -/
def observe (e : Env) (s : TxState) (akey : AKey) : AdbResult (Option Entry) :=
  match s.buffer.dirs.get akey with
  | some children => .ok (some (.dir children))
  | none => readVerified e s akey

section Reads

variable {e : Env} {s : TxState} {akey : AKey} {o : Option Entry}

theorem child_eq (h : observe e s akey = .ok o) (name : Str) :
    child e s akey name = .ok (Layout.childOf (fun _ => o) akey name) := by
  unfold observe at h
  unfold child
  rw [WriteBuffer.dirGet_eq]
  cases hd : s.buffer.dirs.get akey with
  | some children =>
    rw [hd] at h
    obtain rfl := Except.ok.inj h
    rfl
  | none =>
    rw [hd] at h
    simp only [h, Except.ok_bind]
    rcases o with _ | (_ | _) <;> rfl

theorem kind_eq (h : observe e s akey = .ok o) : kind e s akey = .ok (o.map Entry.kind) := by
  unfold observe at h
  unfold kind
  rw [WriteBuffer.dirGet_eq]
  cases hd : s.buffer.dirs.get akey with
  | some children =>
    rw [hd] at h
    obtain rfl := Except.ok.inj h
    rfl
  | none =>
    rw [hd] at h
    simp only [h, Except.ok_bind]
    rfl

theorem dirChildren_eq {m : SortedMap Str AKey} (h : observe e s akey = .ok (some (.dir m))) :
    dirChildren e s akey = .ok m := by
  unfold observe at h
  unfold dirChildren
  rw [WriteBuffer.dirGet_eq]
  cases hd : s.buffer.dirs.get akey with
  | some children =>
    rw [hd] at h
    cases h
    rfl
  | none =>
    rw [hd] at h
    simp only [h, Except.ok_bind]
    rfl

theorem cascadeChildren_eq (h : observe e s akey = .ok o) :
    cascadeChildren e s akey = .ok (o.map Layout.Cell.linked) := by
  unfold observe at h
  unfold cascadeChildren
  rw [WriteBuffer.dirGet_eq]
  cases hd : s.buffer.dirs.get akey with
  | some children =>
    rw [hd] at h
    obtain rfl := Except.ok.inj h
    rfl
  | none =>
    rw [hd] at h
    simp only [h, Except.ok_bind]
    rcases o with _ | (_ | _) <;> rfl

end Reads

/-! ## The buffer and the table -/

/-- The buffer is coherent with the table: a buffered file edits a file of the table, a buffered
directory covers no file, and nothing is buffered once buffering is off. -/
structure Coherent (s : TxState) : Prop where
  file : ∀ {k : AKey} {b : Bytes}, s.buffer.files.get k = some b →
    ∃ b', s.data.get k = some (.file b')
  dir : ∀ {k : AKey} {m : SortedMap Str AKey}, s.buffer.dirs.get k = some m →
    s.buffer.files.get k = none ∧ ∀ b, s.data.get k ≠ some (.file b)
  off : s.buffer.buffering = false → ∀ k, s.buffer.dirs.get k = none ∧ s.buffer.files.get k = none

section Observe

variable {e : Env} {s : TxState} {k : AKey}

theorem readMeta_eq (inodes : InodeTable) (k : AKey) :
    inodes.readMeta k = ((inodes.get k).bind Inode.acl, (inodes.get k).bind Inode.mac) := by
  unfold InodeTable.readMeta
  cases inodes.get k <;> rfl

theorem record_get_ne (e : Env) (inodes : InodeTable) (c : Entry) {j : AKey} (h : j ≠ k) :
    (e.record inodes k c).get j = inodes.get j := by
  unfold Env.record
  split
  · rfl
  · exact SortedMap.get_insert_ne _ _ h
  · split
    · exact SortedMap.get_insert_ne _ _ h
    · exact SortedMap.get_insert_ne _ _ h

/-- A freshly written entry carries a valid tag. -/
theorem verifyIntegrity_record {data : SortedMap AKey Entry} {index : SortedMap Bytes Bytes}
    {buffer : WriteBuffer} {drawn : Nat} (e : Env) (inodes : InodeTable) (k : AKey) (c : Entry) :
    verifyIntegrity e ⟨data, e.record inodes k c, index, buffer, drawn⟩ k c = .ok () := by
  unfold verifyIntegrity
  cases hp : e.principal with
  | unrestricted => rfl
  | guest => rfl
  | user session =>
    have hb : e.build = .permissions := by
      by_contra hne
      rw [e.unprotected hne] at hp
      cases hp
    simp only [Env.record, hb, hp, InodeTable.stampAndSeal, readMeta_eq, SortedMap.get_insert_self,
      Option.bind_some, if_true]

theorem verifyIntegrity_congr {t : TxState} (h : s.inodes.get k = t.inodes.get k) (c : Entry) :
    verifyIntegrity e s k c = verifyIntegrity e t k c := by
  unfold verifyIntegrity
  rw [readMeta_eq, readMeta_eq, h]

/-- Two states that agree on an a-node's buffered copies, entry and inode show it alike. -/
theorem observe_congr {t : TxState} (hdirs : s.buffer.dirs.get k = t.buffer.dirs.get k)
    (hfiles : s.buffer.files.get k = t.buffer.files.get k) (hdata : s.data.get k = t.data.get k)
    (hinodes : s.inodes.get k = t.inodes.get k) : observe e s k = observe e t k := by
  unfold observe readVerified readTable
  simp only [WriteBuffer.fileGet_eq, hdirs, hfiles, hdata]
  cases t.data.get k with
  | none => rfl
  | some c => simp only [verifyIntegrity_congr hinodes c]

theorem observe_putEntry (c : Entry) (hdirs : s.buffer.dirs.get k = none) (j : AKey) :
    observe e (s.putEntry e k c) j = if j = k then .ok (some c) else observe e s j := by
  by_cases hj : j = k
  · subst hj
    rw [if_pos rfl]
    have hfiles : (s.buffer.fileForget j).files.get j = none := by
      rw [WriteBuffer.get_files_fileForget, if_pos rfl]
    unfold observe readVerified readTable TxState.putEntry
    simp only [WriteBuffer.dirs_fileForget, hdirs, WriteBuffer.fileGet_eq, hfiles,
      SortedMap.get_insert_self, verifyIntegrity_record, Except.ok_bind, Except.pure_eq_ok]
  · rw [if_neg hj]
    apply observe_congr
    · rfl
    · exact (WriteBuffer.get_files_fileForget ..).trans (if_neg hj)
    · exact SortedMap.get_insert_ne _ _ hj
    · exact record_get_ne e s.inodes c hj

theorem observe_removeEntry (j : AKey) :
    observe e (s.removeEntry e k) j = if j = k then .ok none else observe e s j := by
  by_cases hj : j = k
  · subst hj
    rw [if_pos rfl]
    have hdirs : (s.buffer.forget j).dirs.get j = none := by
      rw [WriteBuffer.get_dirs_forget, if_pos rfl]
    have hfiles : (s.buffer.forget j).files.get j = none := by
      rw [WriteBuffer.get_files_forget, if_pos rfl]
    unfold observe readVerified readTable TxState.removeEntry
    simp only [hdirs, WriteBuffer.fileGet_eq, hfiles, SortedMap.get_erase_self]
  · rw [if_neg hj]
    apply observe_congr
    · exact (WriteBuffer.get_dirs_forget ..).trans (if_neg hj)
    · exact (WriteBuffer.get_files_forget ..).trans (if_neg hj)
    · exact SortedMap.get_erase_ne _ hj
    · unfold TxState.removeEntry
      split
      · rfl
      · exact SortedMap.get_erase_ne _ hj

/-- Buffering a directory shows it at once; the inode of another a-node has to stay. -/
theorem observe_dirPut (m : SortedMap Str AKey) {inodes : InodeTable}
    (hinodes : ∀ j, j ≠ k → inodes.get j = s.inodes.get j) (j : AKey) :
    observe e { s with inodes := inodes, buffer := s.buffer.dirPut k m } j =
      if j = k then .ok (some (.dir m)) else observe e s j := by
  by_cases hj : j = k
  · subst hj
    rw [if_pos rfl]
    unfold observe WriteBuffer.dirPut
    simp only [SortedMap.get_insert_self]
  · rw [if_neg hj]
    apply observe_congr
    · exact SortedMap.get_insert_ne _ _ hj
    · rfl
    · rfl
    · exact hinodes j hj

theorem observe_filePut (b : Bytes) (hdirs : s.buffer.dirs.get k = none) (j : AKey) :
    observe e { s with buffer := s.buffer.filePut k b } j =
      if j = k then .ok (some (.file b)) else observe e s j := by
  by_cases hj : j = k
  · subst hj
    rw [if_pos rfl]
    unfold observe readVerified WriteBuffer.filePut
    simp only [hdirs, WriteBuffer.fileGet_eq, SortedMap.get_insert_self]
  · rw [if_neg hj]
    apply observe_congr
    · rfl
    · exact SortedMap.get_insert_ne _ _ hj
    · rfl
    · rfl

theorem stampNewDirAcl_get_ne (e : Env) (inodes : InodeTable) {j : AKey} (h : j ≠ k) :
    (e.stampNewDirAcl inodes k).get j = inodes.get j := by
  unfold Env.stampNewDirAcl
  split
  · split
    · rfl
    · unfold InodeTable.setDefaultAcl
      simp only
      split
      · rfl
      · exact SortedMap.get_insert_ne _ _ h
  · rfl

/-! ### Coherence is kept -/

theorem Coherent.putEntry (h : Coherent s) {c : Entry}
    (hdirs : s.buffer.dirs.get k = none) : Coherent (s.putEntry e k c) where
  file {j b} hj := by
    rw [TxState.putEntry] at hj ⊢
    simp only [WriteBuffer.get_files_fileForget] at hj
    split at hj
    · cases hj
    · rename_i hne
      simp only [SortedMap.get_insert_ne _ _ hne]
      exact h.file hj
  dir {j m} hj := by
    have hne : j ≠ k := by
      rintro rfl
      rw [TxState.putEntry] at hj
      simp only [WriteBuffer.dirs_fileForget, hdirs] at hj
      cases hj
    rw [TxState.putEntry] at hj ⊢
    simp only [WriteBuffer.get_files_fileForget, if_neg hne, SortedMap.get_insert_ne _ _ hne]
    exact h.dir hj
  off hb j := by
    refine ⟨(h.off hb j).1, ?_⟩
    change (s.buffer.fileForget k).files.get j = none
    rw [WriteBuffer.get_files_fileForget, (h.off hb j).2]
    split <;> rfl

theorem Coherent.removeEntry (h : Coherent s) : Coherent (s.removeEntry e k) where
  file {j b} hj := by
    rw [TxState.removeEntry] at hj ⊢
    simp only [WriteBuffer.get_files_forget] at hj
    split at hj
    · cases hj
    · rename_i hne
      simp only [SortedMap.get_erase_ne _ hne]
      exact h.file hj
  dir {j m} hj := by
    rw [TxState.removeEntry] at hj ⊢
    simp only [WriteBuffer.get_dirs_forget] at hj
    split at hj
    · cases hj
    · rename_i hne
      simp only [WriteBuffer.get_files_forget, if_neg hne, SortedMap.get_erase_ne _ hne]
      exact h.dir hj
  off hb j := by
    change (s.buffer.forget k).dirs.get j = none ∧ (s.buffer.forget k).files.get j = none
    rw [WriteBuffer.get_dirs_forget, WriteBuffer.get_files_forget, (h.off hb j).1, (h.off hb j).2]
    constructor <;> split <;> rfl

/-- A directory may be buffered under a key that shows no file. -/
theorem Coherent.dirPut (h : Coherent s) {m : SortedMap Str AKey} {inodes : InodeTable}
    (hon : s.buffer.buffering = true) (hk : ∀ b, s.data.get k ≠ some (.file b)) :
    Coherent { s with inodes := inodes, buffer := s.buffer.dirPut k m } where
  file hj := h.file hj
  dir {j m'} hj := by
    by_cases hne : j = k
    · subst hne
      refine ⟨?_, hk⟩
      cases hf : s.buffer.files.get j with
      | none => exact hf
      | some b =>
        obtain ⟨b', hb'⟩ := h.file hf
        exact absurd hb' (hk b')
    · have hj' : (s.buffer.dirs.insert k m).get j = some m' := hj
      rw [SortedMap.get_insert_ne _ _ hne] at hj'
      exact h.dir hj'
  off hb := by
    have hb' : s.buffer.buffering = false := hb
    rw [hon] at hb'
    cases hb'

theorem Coherent.filePut (h : Coherent s) {b : Bytes} (hon : s.buffer.buffering = true)
    (hdirs : s.buffer.dirs.get k = none) (hk : ∃ b', s.data.get k = some (.file b')) :
    Coherent { s with buffer := s.buffer.filePut k b } where
  file {j b'} hj := by
    by_cases hne : j = k
    · subst hne
      exact hk
    · have hj' : (s.buffer.files.insert k b).get j = some b' := hj
      rw [SortedMap.get_insert_ne _ _ hne] at hj'
      exact h.file hj'
  dir {j m} hj := by
    have hne : j ≠ k := by
      rintro rfl
      exact absurd (hdirs.symm.trans hj) (by simp)
    refine ⟨?_, (h.dir hj).2⟩
    change (s.buffer.files.insert k b).get j = none
    rw [SortedMap.get_insert_ne _ _ hne]
    exact (h.dir hj).1
  off hb := by
    have hb' : s.buffer.buffering = false := hb
    rw [hon] at hb'
    cases hb'

end Observe

/-! ## Access -/

section Access

variable {e : Env} {k : AKey}

/-- The list a write gives an a-node that has none. -/
def Env.ownAcl (e : Env) (k : AKey) : Option Acl :=
  match e.principal with
  | .user session => if k = .root then none else some (.defaultFor session.uid)
  | _ => none

theorem readAcl_record (e : Env) (inodes : InodeTable) (k j : AKey) (c : Entry) :
    (e.record inodes k c).readAcl j =
      if j = k then (inodes.readAcl k).or (e.ownAcl k) else inodes.readAcl j := by
  by_cases hj : j = k
  · subst hj
    rw [if_pos rfl]
    have htouch : (inodes.touch j e.now).readAcl j = inodes.readAcl j := by
      unfold InodeTable.touch InodeTable.readAcl InodeTable.load
      rw [SortedMap.get_insert_self]
      cases inodes.get j <;> rfl
    unfold Env.record Env.ownAcl
    cases hb : e.build with
    | plain => rw [e.unprotected (by rw [hb]; decide), Option.or_none]
    | timestamps => rw [e.unprotected (by rw [hb]; decide), Option.or_none]; exact htouch
    | permissions =>
      cases hp : e.principal with
      | unrestricted => rw [Option.or_none]; exact htouch
      | guest => rw [Option.or_none]; exact htouch
      | user session =>
        simp only
        unfold InodeTable.stampAndSeal InodeTable.readAcl InodeTable.load
        rw [SortedMap.get_insert_self]
        cases inodes.get j <;> by_cases hr : j = .root <;> simp [hr, Inode.default]
  · rw [if_neg hj]
    unfold InodeTable.readAcl
    rw [record_get_ne e inodes c hj]

theorem readAcl_stamp (e : Env) (inodes : InodeTable) (k j : AKey) :
    (e.stampNewDirAcl inodes k).readAcl j =
      if j = k then (inodes.readAcl k).or (e.ownAcl k) else inodes.readAcl j := by
  by_cases hj : j = k
  · subst hj
    rw [if_pos rfl]
    unfold Env.stampNewDirAcl Env.ownAcl
    cases hp : e.principal with
    | unrestricted => rw [Option.or_none]
    | guest => rw [Option.or_none]
    | user session =>
      simp only
      by_cases hr : j = .root
      · rw [if_pos hr, if_pos hr, Option.or_none]
      · rw [if_neg hr, if_neg hr]
        unfold InodeTable.setDefaultAcl InodeTable.readAcl InodeTable.load
        cases hi : inodes.get j with
        | none => simp [Inode.default]
        | some inode => cases ha : inode.acl <;> simp [hi, ha]
  · rw [if_neg hj]
    unfold InodeTable.readAcl
    rw [stampNewDirAcl_get_ne e inodes hj]

/-- A list under which the principal may do everything. -/
def Grants (e : Env) (k : AKey) (acl : Option Acl) : Prop :=
  ∀ needed, authorize e.principal k acl needed = .ok ()

theorem grants_unrestricted (h : e.principal = .unrestricted) (k : AKey) (acl : Option Acl) :
    Grants e k acl := by
  intro needed
  rw [h, authorize_unrestricted]

theorem grants_root (e : Env) (acl : Option Acl) : Grants e .root acl := by
  intro needed
  cases hp : e.principal with
  | unrestricted => exact authorize_unrestricted ..
  | guest => exact absurd hp e.writer
  | user session => exact authorize_root_user ..

/-- What the principal writes first, it owns. -/
theorem grants_own (e : Env) (k : AKey) : Grants e k (e.ownAcl k) := by
  by_cases hr : k = .root
  · subst hr
    exact grants_root e _
  · intro needed
    unfold Env.ownAcl
    cases hp : e.principal with
    | unrestricted => exact authorize_unrestricted ..
    | guest => exact absurd hp e.writer
    | user session =>
      simp only [if_neg hr]
      exact authorize_owner ..

theorem Grants.or {acl : Option Acl} (h : Grants e k acl) : Grants e k (acl.or (e.ownAcl k)) := by
  cases acl with
  | none => exact grants_own e k
  | some acl => exact h

end Access

/-! ## Seeing a store -/

/-- A property of the inodes of the a-nodes in a store that every write keeps. In a protected
database an absent a-node has no list. -/
structure Policy (e : Env) where
  holds : View → InodeTable → Prop
  tidy : ∀ {v : View} {inodes : InodeTable} {k : AKey}, holds v inodes →
    e.principal ≠ .unrestricted → v k = none → inodes.readAcl k = none
  record : ∀ {v : View} {inodes : InodeTable} (k : AKey) (c : Entry), holds v inodes →
    holds (Function.update v k (some c)) (e.record inodes k c)
  stamp : ∀ {v : View} {inodes : InodeTable} (k : AKey) (c : Entry), holds v inodes →
    holds (Function.update v k (some c)) (e.stampNewDirAcl inodes k)
  edit : ∀ {v : View} {inodes : InodeTable} {k : AKey} (c : Entry), v k ≠ none → holds v inodes →
    holds (Function.update v k (some c)) inodes
  remove : ∀ {v : View} {inodes : InodeTable} (k : AKey), holds v inodes →
    holds (Function.update v k none) (if e.build = .plain then inodes else inodes.forget k)

namespace Policy

variable {e : Env}

theorem ne_plain (h : e.principal ≠ .unrestricted) : e.build ≠ .plain := by
  intro hb
  exact h (e.unprotected (by rw [hb]; decide))

theorem readAcl_forget (inodes : InodeTable) (k j : AKey) :
    (inodes.forget k).readAcl j = if j = k then none else inodes.readAcl j := by
  unfold InodeTable.forget InodeTable.readAcl
  rw [SortedMap.get_erase]
  split <;> rfl

/-- The policy that asks nothing more. -/
def base (e : Env) : Policy e where
  holds v inodes := e.principal ≠ .unrestricted → ∀ k, v k = none → inodes.readAcl k = none
  tidy h hp hk := h hp _ hk
  record k c h hp j hj := by
    have hjk : j ≠ k := by
      rintro rfl
      simp at hj
    rw [Function.update_of_ne hjk] at hj
    rw [readAcl_record, if_neg hjk, h hp j hj]
  stamp k c h hp j hj := by
    have hjk : j ≠ k := by
      rintro rfl
      simp at hj
    rw [Function.update_of_ne hjk] at hj
    rw [readAcl_stamp, if_neg hjk, h hp j hj]
  edit {v inodes k} c _ h hp j hj := by
    have hjk : j ≠ k := by
      rintro rfl
      simp at hj
    rw [Function.update_of_ne hjk] at hj
    exact h hp j hj
  remove k h hp j hj := by
    rw [if_neg (ne_plain hp), readAcl_forget]
    by_cases hjk : j = k
    · rw [if_pos hjk]
    · rw [if_neg hjk]
      rw [Function.update_of_ne hjk] at hj
      exact h hp j hj

/-- A written a-node is the principal's if it was before, or if it was absent. -/
theorem grants_written (P : Policy e) {v : View} {inodes : InodeTable} {g : AKey}
    (h : P.holds v inodes) (hg : v g ≠ none → Grants e g (inodes.readAcl g)) :
    Grants e g ((inodes.readAcl g).or (e.ownAcl g)) := by
  cases hv : v g with
  | some c => exact (hg (by simp [hv])).or
  | none =>
    by_cases hp : e.principal = .unrestricted
    · exact grants_unrestricted hp _ _
    · rw [P.tidy h hp hv]
      exact grants_own e g

/-- The policy under which, besides, the principal may do everything to one a-node. -/
def granting (P : Policy e) (g : AKey) : Policy e where
  holds v inodes := P.holds v inodes ∧ (v g ≠ none → Grants e g (inodes.readAcl g))
  tidy h := P.tidy h.1
  record k c h := by
    refine ⟨P.record k c h.1, ?_⟩
    intro hg
    rw [readAcl_record]
    by_cases hgk : g = k
    · subst hgk
      rw [if_pos rfl]
      exact P.grants_written h.1 h.2
    · rw [if_neg hgk]
      rw [Function.update_of_ne hgk] at hg
      exact h.2 hg
  stamp k c h := by
    refine ⟨P.stamp k c h.1, ?_⟩
    intro hg
    rw [readAcl_stamp]
    by_cases hgk : g = k
    · subst hgk
      rw [if_pos rfl]
      exact P.grants_written h.1 h.2
    · rw [if_neg hgk]
      rw [Function.update_of_ne hgk] at hg
      exact h.2 hg
  edit {v inodes k} c hk h := by
    refine ⟨P.edit c hk h.1, ?_⟩
    intro hg
    by_cases hgk : g = k
    · subst hgk
      exact h.2 hk
    · rw [Function.update_of_ne hgk] at hg
      exact h.2 hg
  remove k h := by
    refine ⟨P.remove k h.1, ?_⟩
    intro hg
    have hgk : g ≠ k := by
      rintro rfl
      simp at hg
    rw [Function.update_of_ne hgk] at hg
    split
    · exact h.2 hg
    · rw [readAcl_forget, if_neg hgk]
      exact h.2 hg

end Policy

variable {e : Env}

/-- The state shows the store, `d` keys are generated, and those up to the `n`-th are unused. -/
structure Sees (P : Policy e) (n d : Nat) (v : View) (s : TxState) : Prop where
  shows : ∀ k, observe e s k = .ok (v k)
  coherent : Coherent s
  drawn : s.drawn = d
  fresh : ∀ i, d ≤ i → i < n → v (e.gen i) = none
  policy : P.holds v s.inodes

/-- The first `n` keys generated differ from each other and from the root. -/
def Distinct (e : Env) (n : Nat) : Prop :=
  ∀ i, i < n → e.gen i ≠ .root ∧ ∀ j, j < n → e.gen i = e.gen j → i = j

/-- No key generated from the `d`-th up to the `n`-th is `k`. -/
def Used (e : Env) (n d : Nat) (k : AKey) : Prop := ∀ i, d ≤ i → i < n → e.gen i ≠ k

namespace Sees

variable {P : Policy e} {n d : Nat} {v : View} {s : TxState} {k : AKey}

theorem used (h : Sees P n d v s) (hk : v k ≠ none) : Used e n d k := by
  rintro i hi hn rfl
  exact hk (h.fresh i hi hn)

theorem child (h : Sees P n d v s) (k : AKey) (name : Str) :
    child e s k name = .ok (Layout.childOf v k name) := child_eq (h.shows k) name

theorem kind (h : Sees P n d v s) (k : AKey) : kind e s k = .ok ((v k).map Entry.kind) :=
  kind_eq (h.shows k)

theorem dirChildren (h : Sees P n d v s) {m : SortedMap Str AKey} (hk : v k = some (.dir m)) :
    dirChildren e s k = .ok m := dirChildren_eq (hk ▸ h.shows k)

theorem cascadeChildren (h : Sees P n d v s) (k : AKey) :
    cascadeChildren e s k = .ok ((v k).map Layout.Cell.linked) := cascadeChildren_eq (h.shows k)

theorem dirs_none (h : Sees P n d v s) (hk : ∀ m, v k ≠ some (.dir m)) :
    s.buffer.dirs.get k = none := by
  cases hd : s.buffer.dirs.get k with
  | none => rfl
  | some m =>
    have hshow := h.shows k
    rw [observe, hd] at hshow
    exact absurd (Except.ok.inj hshow).symm (hk m)

theorem readVerified (h : Sees P n d v s) (hk : ∀ m, v k ≠ some (.dir m)) :
    readVerified e s k = .ok (v k) := by
  have hshow := h.shows k
  rw [observe, h.dirs_none hk] at hshow
  exact hshow

/-- What a store shows is in the buffer or in the table. -/
theorem stored (h : Sees P n d v s) {c : Entry} (hk : v k = some c) :
    (∃ m, s.buffer.dirs.get k = some m ∧ c = .dir m) ∨
      (s.buffer.dirs.get k = none ∧ ∃ b, s.buffer.files.get k = some b ∧ c = .file b) ∨
      (s.buffer.dirs.get k = none ∧ s.buffer.files.get k = none ∧ s.data.get k = some c) := by
  have hshow := h.shows k
  rw [hk] at hshow
  unfold observe ArborDb.readVerified readTable at hshow
  rw [WriteBuffer.fileGet_eq] at hshow
  cases hd : s.buffer.dirs.get k with
  | some m =>
    rw [hd] at hshow
    exact .inl ⟨m, rfl, (Option.some.inj (Except.ok.inj hshow)).symm⟩
  | none =>
    rw [hd] at hshow
    cases hf : s.buffer.files.get k with
    | some b =>
      rw [hf] at hshow
      exact .inr (.inl ⟨rfl, b, rfl, (Option.some.inj (Except.ok.inj hshow)).symm⟩)
    | none =>
      rw [hf] at hshow
      cases hdata : s.data.get k with
      | none =>
        rw [hdata] at hshow
        cases hshow
      | some c' =>
        rw [hdata] at hshow
        obtain ⟨-, -, hret⟩ := Except.bind_eq_ok.1 hshow
        exact .inr (.inr ⟨rfl, rfl, congrArg some (Option.some.inj (Except.ok.inj hret))⟩)

theorem data_file (h : Sees P n d v s) {b : Bytes} (hk : v k = some (.file b)) :
    ∃ b', s.data.get k = some (.file b') := by
  obtain ⟨m, -, hc⟩ | ⟨-, b', hf, -⟩ | ⟨-, -, hd⟩ := h.stored hk
  · cases hc
  · exact h.coherent.file hf
  · exact ⟨b, hd⟩

theorem data_not_file (h : Sees P n d v s) (hk : ∀ b, v k ≠ some (.file b)) (b : Bytes) :
    s.data.get k ≠ some (.file b) := by
  intro hd
  have hshow := h.shows k
  unfold observe ArborDb.readVerified readTable at hshow
  rw [WriteBuffer.fileGet_eq] at hshow
  cases hdirs : s.buffer.dirs.get k with
  | some m => exact (h.coherent.dir hdirs).2 b hd
  | none =>
    rw [hdirs] at hshow
    cases hf : s.buffer.files.get k with
    | some b' =>
      rw [hf] at hshow
      exact hk b' (Except.ok.inj hshow).symm
    | none =>
      rw [hf, hd] at hshow
      obtain ⟨-, -, hret⟩ := Except.bind_eq_ok.1 hshow
      exact hk b (Except.ok.inj hret).symm

/-- Every a-node of the store counts in the size of the state. -/
theorem mem_keys (h : Sees P n d v s) {c : Entry} (hk : v k = some c) :
    k ∈ (s.data.entries.map Prod.fst ++ s.buffer.dirs.entries.map Prod.fst).toFinset := by
  rw [List.mem_toFinset, List.mem_append]
  have hdata : ∀ {c'}, s.data.get k = some c' → k ∈ s.data.entries.map Prod.fst := by
    intro c' hc'
    exact List.mem_map.2 ⟨(k, c'), SortedMap.get_iff_mem.1 hc', rfl⟩
  obtain ⟨m, hd, -⟩ | ⟨-, b, hf, -⟩ | ⟨-, -, hd⟩ := h.stored hk
  · exact .inr (List.mem_map.2 ⟨(k, m), SortedMap.get_iff_mem.1 hd, rfl⟩)
  · obtain ⟨b', hb'⟩ := h.coherent.file hf
    exact .inl (hdata hb')
  · exact .inl (hdata hd)

theorem hasEntry (h : Sees P n d v s) (k : AKey) : hasEntry s k = (v k).isSome := by
  unfold ArborDb.hasEntry SortedMap.contains
  rw [WriteBuffer.dirGet_eq]
  cases hv : v k with
  | some c =>
    obtain ⟨m, hd, -⟩ | ⟨-, b, hf, -⟩ | ⟨-, -, hd⟩ := h.stored hv
    · simp [hd]
    · obtain ⟨b', hb'⟩ := h.coherent.file hf
      simp [hb']
    · simp [hd]
  | none =>
    have hdirs := h.dirs_none (k := k) (by simp [hv])
    have hshow := h.shows k
    rw [hv] at hshow
    unfold observe ArborDb.readVerified readTable at hshow
    rw [WriteBuffer.fileGet_eq, hdirs] at hshow
    cases hf : s.buffer.files.get k with
    | some b =>
      rw [hf] at hshow
      cases hshow
    | none =>
      rw [hf] at hshow
      cases hd : s.data.get k with
      | none => simp [hdirs]
      | some c =>
        rw [hd] at hshow
        obtain ⟨-, -, hret⟩ := Except.bind_eq_ok.1 hshow
        cases hret

end Sees

end ArborDb
