import ArborDb.Db.Shared

/-!
# What a coherent set of caches guarantees

A `Meaning` fixes a view of the committed state and says what a cached binding tells about it. The
caches are coherent if every generation stands for one view, which all bindings tagged with it tell
the truth about. Every step keeps them so, as long as no generation is used twice and what commits
without advancing the generation leaves the view alone; then every call answers what it should.
-/

namespace ArborDb

open Consult (Contract Sound)

/-- A view of the committed state, what the bindings of the caches and the memos tell about it, and
what the calls of a transaction are to answer. -/
structure Meaning (V : Type) where
  view : Db → V
  admits : Handle → Prop
  path : V → Str → APath → AKey → Prop
  blob : V → Str → AKey → Entry → Prop
  inode : V → Str → AKey → Inode → Prop
  macVerified : V → Str → AKey → Prop
  enforcedPath : ReadTxn → APath → AKey → Prop
  accessOk : ReadTxn → AKey → Prop
  verified : ReadTxn → AKey → Prop
  answer : ReadTxn → ReadCall → AdbResult Answer → Prop

namespace Meaning

variable {V : Type} (M : Meaning V)

/-- A transaction caches what holds in its snapshot, and finds only such bindings. -/
def contract (t : ReadTxn) : Contract CacheOp CacheOp.Result where
  pre
    | .putPath path akey => M.path (M.view t.db) t.table path akey
    | .putBlob akey entry => M.blob (M.view t.db) t.table akey entry
    | .putInode akey inode => M.inode (M.view t.db) t.table akey inode
    | .putMacVerified akey => M.macVerified (M.view t.db) t.table akey
    | .memoPath path akey => M.enforcedPath t path akey
    | .memoAccess akey => M.accessOk t akey
    | .memoVerified akey => M.verified t akey
    | _ => True
  post
    | .getPath path, found => ∀ akey, found = some akey → M.path (M.view t.db) t.table path akey
    | .getBlob akey, found => ∀ entry, found = some entry → M.blob (M.view t.db) t.table akey entry
    | .getInode akey, found => ∀ inode, found = some inode → M.inode (M.view t.db) t.table akey inode
    | .getMacVerified akey, found => found = true → M.macVerified (M.view t.db) t.table akey
    | .enforcedPath path, found => ∀ akey, found = some akey → M.enforcedPath t path akey
    | .accessMemoed akey, found => found = true → M.accessOk t akey
    | .verifyMemoed akey, found => found = true → M.verified t akey
    | _, _ => True

variable (content : UInt64 → V) (top : UInt64)

/-- Every binding of a table's caches tells the truth about the view its tag stands for. -/
structure CacheTells (table : Str) (cache : PathCache) : Prop where
  path : ∀ {path g akey}, cache.paths path = some (g, akey) → g ≤ top ∧ M.path (content g) table path akey
  blob : ∀ {g akey entry}, cache.blobs (g, akey) = some entry →
    g ≤ top ∧ M.blob (content g) table akey entry
  inode : ∀ {g akey inode}, cache.inodes (g, akey) = some inode →
    g ≤ top ∧ M.inode (content g) table akey inode
  mac : ∀ {g akey}, cache.verifiedMacs (g, akey) = true → g ≤ top ∧ M.macVerified (content g) table akey

/-- A memo tells the truth about its transaction. -/
structure MemoTells (t : ReadTxn) (memo : Memo) : Prop where
  path : ∀ {path akey}, memo.enforcedPaths path = some akey → M.enforcedPath t path akey
  access : ∀ {akey}, memo.accessOk akey = true → M.accessOk t akey
  verified : ∀ {akey}, memo.verified akey = true → M.verified t akey

/-- A transaction's generation stands for its snapshot. -/
structure TxnTells (t : ReadTxn) : Prop where
  admitted : M.admits t.toHandle
  tag : content t.generation = M.view t.db
  le_top : t.generation ≤ top

/-- What is known of a thread from where it is. -/
def ThreadTells (txns : SortedMap Nat (ReadTxn × Memo)) : Thread → Prop
  | .reading handle => M.admits handle
  | .begun handle db => M.admits handle ∧ content top = M.view db
  | .loaded t => M.TxnTells content top t
  | .calling n call rest =>
    ∃ t memo, txns.get n = some (t, memo) ∧ Sound (M.contract t) (M.answer t call) rest
  | .answered n call result => ∃ t memo, txns.get n = some (t, memo) ∧ M.answer t call result
  | _ => True

variable {M content top} {table : Str} {cache : PathCache} {t : ReadTxn} {memo : Memo}

theorem MemoTells.new : M.MemoTells t .new := ⟨nofun, nofun, nofun⟩

theorem CacheTells.new : M.CacheTells content top table .new := ⟨nofun, nofun, nofun, nofun⟩

/-- Dropping a binding keeps the others. -/
theorem CacheTells.evict (h : M.CacheTells content top table cache) (eviction : Eviction) :
    M.CacheTells content top table (cache.evict eviction) := by
  cases eviction with
  | path path =>
    refine ⟨fun hget => h.path ?_, h.blob, h.inode, h.mac⟩
    simp only [PathCache.evict, Function.update_apply] at hget
    split at hget
    · cases hget
    · exact hget
  | blob key =>
    refine ⟨h.path, fun hget => h.blob ?_, h.inode, h.mac⟩
    simp only [PathCache.evict, Function.update_apply] at hget
    split at hget
    · cases hget
    · exact hget
  | inode key =>
    refine ⟨h.path, h.blob, fun hget => h.inode ?_, h.mac⟩
    simp only [PathCache.evict, Function.update_apply] at hget
    split at hget
    · cases hget
    · exact hget
  | verifiedMac key =>
    refine ⟨h.path, h.blob, h.inode, fun hget => h.mac ?_⟩
    simp only [PathCache.evict, Function.update_apply] at hget
    split at hget
    · cases hget
    · exact hget

/-- A permitted access is answered truthfully and leaves the caches and the memo truthful. -/
theorem CacheTells.exec (h : M.CacheTells content top t.table cache) (hmemo : M.MemoTells t memo)
    (ht : M.TxnTells content top t) {op : CacheOp} (hpre : (M.contract t).pre op) :
    (M.contract t).post op (op.exec t.generation cache memo).1 ∧
      M.CacheTells content top t.table (op.exec t.generation cache memo).2.1 ∧
      M.MemoTells t (op.exec t.generation cache memo).2.2 := by
  cases op with
  | getPath path =>
    refine ⟨?_, h, hmemo⟩
    intro akey hfound
    change cache.getPath t.generation path = some akey at hfound
    unfold PathCache.getPath at hfound
    split at hfound
    · rename_i stored key hget
      split at hfound
      · rename_i hstored
        cases hfound
        rw [← ht.tag, ← hstored]
        exact (h.path hget).2
      · cases hfound
    · cases hfound
  | putPath path akey =>
    refine ⟨trivial, ⟨?_, h.blob, h.inode, h.mac⟩, hmemo⟩
    intro path' g akey' hget
    simp only [CacheOp.exec, PathCache.putPath, Function.update_apply] at hget
    split at hget
    · rename_i hpath
      cases hget
      rw [hpath, ht.tag]
      exact ⟨ht.le_top, hpre⟩
    · exact h.path hget
  | getBlob akey =>
    refine ⟨?_, h, hmemo⟩
    intro entry hfound
    rw [← ht.tag]
    exact (h.blob hfound).2
  | putBlob akey entry =>
    refine ⟨trivial, ⟨h.path, ?_, h.inode, h.mac⟩, hmemo⟩
    intro g akey' entry' hget
    simp only [CacheOp.exec, PathCache.putBlob, Function.update_apply] at hget
    split at hget
    · rename_i hkey
      cases hget
      cases hkey
      rw [ht.tag]
      exact ⟨ht.le_top, hpre⟩
    · exact h.blob hget
  | getInode akey =>
    refine ⟨?_, h, hmemo⟩
    intro inode hfound
    rw [← ht.tag]
    exact (h.inode hfound).2
  | putInode akey inode =>
    refine ⟨trivial, ⟨h.path, h.blob, ?_, h.mac⟩, hmemo⟩
    intro g akey' inode' hget
    simp only [CacheOp.exec, PathCache.putInode, Function.update_apply] at hget
    split at hget
    · rename_i hkey
      cases hget
      cases hkey
      rw [ht.tag]
      exact ⟨ht.le_top, hpre⟩
    · exact h.inode hget
  | getMacVerified akey =>
    refine ⟨?_, h, hmemo⟩
    intro hfound
    rw [← ht.tag]
    exact (h.mac hfound).2
  | putMacVerified akey =>
    refine ⟨trivial, ⟨h.path, h.blob, h.inode, ?_⟩, hmemo⟩
    intro g akey' hget
    simp only [CacheOp.exec, PathCache.putMacVerified, Function.update_apply] at hget
    split at hget
    · rename_i hkey
      cases hkey
      rw [ht.tag]
      exact ⟨ht.le_top, hpre⟩
    · exact h.mac hget
  | enforcedPath path => exact ⟨fun akey hfound => hmemo.path hfound, h, hmemo⟩
  | memoPath path akey =>
    refine ⟨trivial, h, ⟨?_, hmemo.access, hmemo.verified⟩⟩
    intro path' akey' hget
    simp only [CacheOp.exec, Function.update_apply] at hget
    split at hget
    · rename_i hpath
      cases hget
      rw [hpath]
      exact hpre
    · exact hmemo.path hget
  | accessMemoed akey => exact ⟨fun hfound => hmemo.access hfound, h, hmemo⟩
  | memoAccess akey =>
    refine ⟨trivial, h, ⟨hmemo.path, ?_, hmemo.verified⟩⟩
    intro akey' hget
    simp only [CacheOp.exec, Function.update_apply] at hget
    split at hget
    · rename_i hkey
      rw [hkey]
      exact hpre
    · exact hmemo.access hget
  | verifyMemoed akey => exact ⟨fun hfound => hmemo.verified hfound, h, hmemo⟩
  | memoVerified akey =>
    refine ⟨trivial, h, ⟨hmemo.path, hmemo.access, ?_⟩⟩
    intro akey' hget
    simp only [CacheOp.exec, Function.update_apply] at hget
    split at hget
    · rename_i hkey
      rw [hkey]
      exact hpre
    · exact hmemo.verified hget

/-! ## Changes of the generation and of the transactions -/

variable {content' : UInt64 → V} {top' : UInt64} {reads reads' : SortedMap Nat (ReadTxn × Memo)}

theorem TxnTells.mono (h : M.TxnTells content top t) (hcontent : ∀ g, g ≤ top → content' g = content g)
    (htop : top ≤ top') : M.TxnTells content' top' t :=
  ⟨h.admitted, (hcontent _ h.le_top).trans h.tag, UInt64.le_trans h.le_top htop⟩

theorem CacheTells.mono (h : M.CacheTells content top table cache)
    (hcontent : ∀ g, g ≤ top → content' g = content g) (htop : top ≤ top') :
    M.CacheTells content' top' table cache := by
  refine ⟨fun hget => ?_, fun hget => ?_, fun hget => ?_, fun hget => ?_⟩
  · have hold := h.path hget
    exact ⟨UInt64.le_trans hold.1 htop, by rw [hcontent _ hold.1]; exact hold.2⟩
  · have hold := h.blob hget
    exact ⟨UInt64.le_trans hold.1 htop, by rw [hcontent _ hold.1]; exact hold.2⟩
  · have hold := h.inode hget
    exact ⟨UInt64.le_trans hold.1 htop, by rw [hcontent _ hold.1]; exact hold.2⟩
  · have hold := h.mac hget
    exact ⟨UInt64.le_trans hold.1 htop, by rw [hcontent _ hold.1]; exact hold.2⟩

/-- A thread's knowledge outlives what others do to the memos and to the set of transactions. -/
theorem ThreadTells.txns {th : Thread} (h : M.ThreadTells content top reads th)
    (htxns : ∀ n t memo, reads.get n = some (t, memo) → ∃ memo', reads'.get n = some (t, memo')) :
    M.ThreadTells content top reads' th := by
  cases th with
  | calling n call rest =>
    obtain ⟨t, memo, hget, hsound⟩ := h
    obtain ⟨memo', hget'⟩ := htxns n t memo hget
    exact ⟨t, memo', hget', hsound⟩
  | answered n call result =>
    obtain ⟨t, memo, hget, hanswer⟩ := h
    obtain ⟨memo', hget'⟩ := htxns n t memo hget
    exact ⟨t, memo', hget', hanswer⟩
  | _ => exact h

/-- A thread that does not hold the read lock knows nothing of the current generation. -/
theorem ThreadTells.mono {th : Thread} (h : M.ThreadTells content top reads th)
    (hlock : th.holdsRead = false) : M.ThreadTells content' top' reads th := by
  cases th with
  | reading _ => cases hlock
  | begun _ _ => cases hlock
  | loaded _ => cases hlock
  | _ => exact h

end Meaning

/-! ## The invariant -/

namespace Sys

variable {V : Type} (M : Meaning V)

/-- While a thread holds the write lock no other one holds either. -/
def Exclusive (s : Sys) : Prop :=
  ∀ i j, (s.thread i).holdsWrite = true → j ≠ i →
    (s.thread j).holdsRead = false ∧ (s.thread j).holdsWrite = false

structure Coherent (content : UInt64 → V) (s : Sys) : Prop where
  exclusive : s.Exclusive
  current : (∀ i, s.thread i ≠ .committed) → content s.generation = M.view s.db
  caches : ∀ table, M.CacheTells content s.generation table (s.cache table)
  txns : ∀ {n t memo}, s.txns.get n = some (t, memo) →
    M.TxnTells content s.generation t ∧ M.MemoTells t memo
  threads : ∀ i, M.ThreadTells content s.generation s.txns (s.thread i)

/-- No generation is used twice, and what commits without advancing it leaves the view alone. -/
def Permits [Externals] (s : Sys) : Event → Prop
  | .lockRead _ handle => M.admits handle
  | .bump _ => s.generation.toNat + 1 < 2 ^ 64
  | .quiet op => ∀ db, op.apply s.db = some db → M.view db = M.view s.db
  | _ => True

variable {M} {content : UInt64 → V} {s s' : Sys} {i : Nat} {th : Thread}

@[simp] theorem thread_set (s : Sys) (i j : Nat) (th : Thread) :
    (s.set i th).thread j = if j = i then th else s.thread j := by
  unfold thread set
  rw [SortedMap.get_insert]
  split <;> rfl

theorem lock_of_any {p : Thread → Bool} (hidle : p .idle = false) (h : s.threads.values.any p = false)
    (i : Nat) : p (s.thread i) = false := by
  unfold thread
  cases hget : s.threads.get i with
  | none => exact hidle
  | some th =>
    have hmem : th ∈ s.threads.values := List.mem_map.2 ⟨_, SortedMap.get_iff_mem.1 hget, rfl⟩
    have hall := List.any_eq_false.1 h th hmem
    simpa using hall

/-- A thread that takes no lock it did not hold keeps the locks exclusive. -/
theorem Exclusive.set (h : s.Exclusive)
    (hread : th.holdsRead = true → (s.thread i).holdsRead = true)
    (hwrite : th.holdsWrite = true → (s.thread i).holdsWrite = true) : (s.set i th).Exclusive := by
  intro j k hj hk
  rw [thread_set] at hj
  rw [thread_set]
  have hwrites : (s.thread j).holdsWrite = true := by
    split at hj
    · rename_i hji
      rw [hji]
      exact hwrite hj
    · exact hj
  have hothers := h j k hwrites hk
  split
  · rename_i hki
    rw [hki] at hothers
    refine ⟨?_, ?_⟩
    · by_contra hheld
      rw [hread (by simpa using hheld)] at hothers
      cases hothers.1
    · by_contra hheld
      rw [hwrite (by simpa using hheld)] at hothers
      cases hothers.2
  · exact hothers

namespace Coherent

/-- A thread moves on, holding no more locks than before, and nothing else changes. -/
theorem set (h : s.Coherent M content)
    (hread : th.holdsRead = true → (s.thread i).holdsRead = true)
    (hwrite : th.holdsWrite = true → (s.thread i).holdsWrite = true)
    (hcommitted : s.thread i ≠ .committed) (htells : M.ThreadTells content s.generation s.txns th) :
    (s.set i th).Coherent M content where
  exclusive := h.exclusive.set hread hwrite
  current hnone := by
    refine h.current fun j => ?_
    by_cases hj : j = i
    · rw [hj]
      exact hcommitted
    · have hthread := hnone j
      rwa [thread_set, if_neg hj] at hthread
  caches := h.caches
  txns := h.txns
  threads j := by
    rw [thread_set]
    split
    · exact htells
    · exact h.threads j

/-- No thread is between a commit and the bump that follows while this one holds a lock. -/
theorem view_eq (h : s.Coherent M content) (hlock : (s.thread i).holdsRead = true) :
    content s.generation = M.view s.db := by
  refine h.current fun j hj => ?_
  by_cases hji : j = i
  · rw [← hji, hj] at hlock
    cases hlock
  · have hother := h.exclusive j i (by rw [hj]; rfl) (Ne.symm hji)
    rw [hlock] at hother
    cases hother.1

theorem set_txns (h : s.Coherent M content) {n : Nat} {t : ReadTxn} {memo : Memo}
    (htxn : M.TxnTells content s.generation t) (hmemo : M.MemoTells t memo)
    (hsame : ∀ t' memo', s.txns.get n = some (t', memo') → t' = t) :
    ({ s with txns := s.txns.insert n (t, memo) } : Sys).Coherent M content where
  exclusive := h.exclusive
  current := h.current
  caches := h.caches
  txns {m t' memo'} hget := by
    rw [SortedMap.get_insert] at hget
    split at hget
    · cases hget
      exact ⟨htxn, hmemo⟩
    · exact h.txns hget
  threads j := by
    refine (h.threads j).txns fun m t' memo' hget => ?_
    rw [SortedMap.get_insert]
    split
    · rename_i hm
      subst hm
      exact ⟨memo, by rw [hsame t' memo' hget]⟩
    · exact ⟨memo', hget⟩

theorem set_cache (h : s.Coherent M content) {table : Str} {cache : PathCache}
    (hcache : M.CacheTells content s.generation table cache) :
    ({ s with caches := s.caches.insert table cache } : Sys).Coherent M content where
  exclusive := h.exclusive
  current := h.current
  caches t := by
    change M.CacheTells content s.generation t (((s.caches.insert table cache).get t).getD .new)
    rw [SortedMap.get_insert]
    split
    · rename_i ht
      rw [ht]
      exact hcache
    · exact h.caches t
  txns := h.txns
  threads := h.threads

/-- A cache access of a call. -/
theorem performed (h : s.Coherent M content) {n : Nat} {call : ReadCall} {t : ReadTxn} {memo : Memo}
    {op : CacheOp} {next : op.Result → Consult CacheOp CacheOp.Result (AdbResult Answer)}
    (hthread : s.thread i = .calling n call (.ask op next)) (htxn : s.txns.get n = some (t, memo)) :
    (s.performed i n call t memo op next).Coherent M content := by
  obtain ⟨ht, hmemo⟩ := h.txns htxn
  have hsound : M.ThreadTells content s.generation s.txns (.calling n call (.ask op next)) :=
    hthread ▸ h.threads i
  obtain ⟨t', memo', htxn', hpre, hnext⟩ := hsound
  cases htxn.symm.trans htxn'
  obtain ⟨hpost, hcache, hmemo'⟩ := (h.caches t.table).exec hmemo ht hpre
  have hupdated := (h.set_cache hcache).set_txns ht hmemo' fun t' memo' hget => by
    cases htxn.symm.trans hget
    rfl
  refine hupdated.set (by simp [Thread.holdsRead]) (by simp [Thread.holdsWrite]) ?_ ?_
  · change s.thread i ≠ .committed
    rw [hthread]
    simp
  · exact ⟨t, _, SortedMap.get_insert_self _ _ _, hnext _ hpost⟩

/-- Advancing the generation gives the state just committed a generation of its own. -/
theorem bump (h : s.Coherent M content) (hthread : s.thread i = .committed)
    (hbound : s.generation.toNat + 1 < 2 ^ 64) :
    ({ s with generation := s.generation + 1 }.set i .bumped : Sys).Coherent M
      (Function.update content (s.generation + 1) (M.view s.db)) := by
  have hnext : (s.generation + 1).toNat = s.generation.toNat + 1 := by
    rw [UInt64.toNat_add]
    exact Nat.mod_eq_of_lt hbound
  have hle : s.generation ≤ s.generation + 1 := by
    rw [UInt64.le_iff_toNat_le, hnext]
    exact Nat.le_succ _
  have hcontent : ∀ g, g ≤ s.generation →
      Function.update content (s.generation + 1) (M.view s.db) g = content g := by
    intro g hg
    refine Function.update_of_ne ?_ _ _
    rintro rfl
    rw [UInt64.le_iff_toNat_le, hnext] at hg
    omega
  have hwrite : (s.thread i).holdsWrite = true := by rw [hthread]; rfl
  constructor
  · exact Exclusive.set (s := { s with generation := s.generation + 1 }) h.exclusive
      (by simp [Thread.holdsRead]) fun _ => hwrite
  · intro _
    exact Function.update_self _ _ _
  · exact fun table => (h.caches table).mono hcontent hle
  · intro n t memo hget
    obtain ⟨ht, hmemo⟩ := h.txns hget
    exact ⟨ht.mono hcontent hle, hmemo⟩
  · intro j
    rw [thread_set]
    split
    · exact trivial
    · rename_i hj
      exact (h.threads j).mono (h.exclusive i j hwrite hj).1

/-- **Every permitted step keeps the caches coherent.** -/
theorem step [Externals] {c : TagScheme}
    (hcalls : ∀ t call, M.admits t.toHandle →
      Sound (M.contract t) (M.answer t call) (call.prog c t).run)
    (h : s.Coherent M content) {event : Event} (hpermits : s.Permits M event)
    (hstep : s.step c event = some s') : ∃ content', s'.Coherent M content' := by
  cases event with
  | lockRead i handle =>
    simp only [Sys.step] at hstep
    split at hstep
    · rename_i hthread
      split at hstep
      · cases hstep
      · rename_i hfree
        cases hstep
        have hnone : ∀ j, (s.thread j).holdsWrite = false :=
          lock_of_any rfl (by simpa [Sys.writeLocked] using hfree)
        refine ⟨content, ⟨?_, ?_, h.caches, h.txns, ?_⟩⟩
        · intro j k hj
          rw [thread_set] at hj
          split at hj
          · cases hj
          · rw [hnone j] at hj
            cases hj
        · intro _
          refine h.current fun j hj => ?_
          have hwrite := hnone j
          rw [hj] at hwrite
          cases hwrite
        · intro j
          rw [thread_set]
          split
          · exact hpermits
          · exact h.threads j
    · cases hstep
  | beginRead i =>
    simp only [Sys.step] at hstep
    split at hstep
    · rename_i handle hthread
      cases hstep
      have hlock : (s.thread i).holdsRead = true := by rw [hthread]; rfl
      have hadmits : M.ThreadTells content s.generation s.txns (.reading handle) := hthread ▸ h.threads i
      refine ⟨content, h.set (fun _ => hlock) (by simp [Thread.holdsWrite]) (by simp [hthread]) ?_⟩
      exact ⟨hadmits, h.view_eq hlock⟩
    · cases hstep
  | loadGeneration i =>
    simp only [Sys.step] at hstep
    split at hstep
    · rename_i handle db hthread
      cases hstep
      have hlock : (s.thread i).holdsRead = true := by rw [hthread]; rfl
      have hbegun : M.ThreadTells content s.generation s.txns (.begun handle db) := hthread ▸ h.threads i
      refine ⟨content, h.set (fun _ => hlock) (by simp [Thread.holdsWrite]) (by simp [hthread]) ?_⟩
      exact ⟨hbegun.1, hbegun.2, UInt64.le_refl _⟩
    · cases hstep
  | unlockRead i n =>
    simp only [Sys.step] at hstep
    split at hstep
    · rename_i t hthread
      split at hstep
      · cases hstep
      · rename_i hfresh
        cases hstep
        have hloaded : M.ThreadTells content s.generation s.txns (.loaded t) := hthread ▸ h.threads i
        have hopened := h.set_txns (n := n) hloaded Meaning.MemoTells.new fun t' memo' hget => by
          simp [SortedMap.contains, hget] at hfresh
        refine ⟨content, hopened.set (by simp [Thread.holdsRead]) (by simp [Thread.holdsWrite]) ?_ trivial⟩
        change s.thread i ≠ .committed
        simp [hthread]
    · cases hstep
  | call i n call =>
    simp only [Sys.step] at hstep
    split at hstep
    · rename_i t memo hthread htxn
      cases hstep
      refine ⟨content, h.set (by simp [Thread.holdsRead]) (by simp [Thread.holdsWrite])
        (by simp [hthread]) ?_⟩
      exact ⟨t, memo, htxn, hcalls t call (h.txns htxn).1.admitted⟩
    · cases hstep
  | access i =>
    simp only [Sys.step] at hstep
    split at hstep
    · rename_i n call op next hthread
      obtain ⟨⟨t, memo⟩, htxn, rfl⟩ := Option.map_eq_some_iff.1 hstep
      exact ⟨content, h.performed hthread htxn⟩
    · cases hstep
  | «return» i =>
    simp only [Sys.step] at hstep
    split at hstep
    · rename_i n call a hthread
      cases hstep
      have hdone : M.ThreadTells content s.generation s.txns (.calling n call (.done a)) :=
        hthread ▸ h.threads i
      exact ⟨content, h.set (by simp [Thread.holdsRead]) (by simp [Thread.holdsWrite])
        (by simp [hthread]) hdone⟩
    · rename_i n call a hthread
      cases hstep
      exact ⟨content, h.set (by simp [Thread.holdsRead]) (by simp [Thread.holdsWrite])
        (by simp [hthread]) trivial⟩
    · cases hstep
  | evict table eviction =>
    cases hstep
    exact ⟨content, h.set_cache ((h.caches table).evict eviction)⟩
  | lockWrite i =>
    simp only [Sys.step] at hstep
    split at hstep
    · rename_i hthread
      split at hstep
      · cases hstep
      · rename_i hfree
        cases hstep
        rw [Bool.not_eq_true, Bool.or_eq_false_iff] at hfree
        have hnoRead : ∀ j, (s.thread j).holdsRead = false := lock_of_any rfl hfree.1
        have hnoWrite : ∀ j, (s.thread j).holdsWrite = false := lock_of_any rfl hfree.2
        refine ⟨content, ⟨?_, ?_, h.caches, h.txns, ?_⟩⟩
        · intro j k hj hk
          rw [thread_set] at hj
          have hji : j = i := by
            by_contra hne
            rw [if_neg hne, hnoWrite j] at hj
            cases hj
          rw [thread_set, if_neg (hji ▸ hk)]
          exact ⟨hnoRead k, hnoWrite k⟩
        · intro _
          refine h.current fun j hj => ?_
          have hwrite := hnoWrite j
          rw [hj] at hwrite
          cases hwrite
        · intro j
          rw [thread_set]
          split
          · exact trivial
          · exact h.threads j
    · cases hstep
  | commit i db =>
    simp only [Sys.step] at hstep
    split at hstep
    · rename_i hthread
      cases hstep
      have hwrite : (s.thread i).holdsWrite = true := by rw [hthread]; rfl
      refine ⟨content, ⟨?_, ?_, h.caches, h.txns, ?_⟩⟩
      · exact Exclusive.set (s := { s with db := db }) h.exclusive (by simp [Thread.holdsRead]) fun _ => hwrite
      · intro hnone
        exact absurd ((thread_set _ i i _).trans (if_pos rfl)) (hnone i)
      · intro j
        rw [thread_set]
        split
        · exact trivial
        · exact h.threads j
    · cases hstep
  | abort i =>
    simp only [Sys.step] at hstep
    split at hstep
    · rename_i hthread
      cases hstep
      exact ⟨content, h.set (by simp [Thread.holdsRead]) (by simp [Thread.holdsWrite])
        (by simp [hthread]) trivial⟩
    · cases hstep
  | bump i =>
    simp only [Sys.step] at hstep
    split at hstep
    · rename_i hthread
      cases hstep
      exact ⟨_, h.bump hthread hpermits⟩
    · cases hstep
  | unlockWrite i =>
    simp only [Sys.step] at hstep
    split at hstep
    · rename_i hthread
      cases hstep
      exact ⟨content, h.set (by simp [Thread.holdsRead]) (by simp [Thread.holdsWrite])
        (by simp [hthread]) trivial⟩
    · cases hstep
  | quiet op =>
    obtain ⟨db, hdb, rfl⟩ := Option.map_eq_some_iff.1 hstep
    refine ⟨content, ⟨h.exclusive, ?_, h.caches, h.txns, h.threads⟩⟩
    intro hnone
    exact (h.current hnone).trans (hpermits db hdb).symm

end Coherent

/-- A database that was just opened is coherent. -/
theorem opened_coherent (db : Db) : (opened db).Coherent M fun _ => M.view db where
  exclusive _ _ h := by cases h
  current _ := rfl
  caches _ := Meaning.CacheTells.new
  txns h := by cases h
  threads _ := trivial

/-- **Every call of a permitted run answers what it should.** -/
theorem run_answers [Externals] {c : TagScheme}
    (hcalls : ∀ t call, M.admits t.toHandle →
      Sound (M.contract t) (M.answer t call) (call.prog c t).run)
    {events : List Event} (h : s.Coherent M content) (hpermits : s.Along c (·.Permits M) events)
    (hrun : s.run c events = some s') {n : Nat} {call : ReadCall} {result : AdbResult Answer}
    (hanswered : s'.thread i = .answered n call result) :
    ∃ t memo, s'.txns.get n = some (t, memo) ∧ M.answer t call result := by
  induction events generalizing s content with
  | nil =>
    cases hrun
    have htells := h.threads i
    rwa [hanswered] at htells
  | cons event events ih =>
    obtain ⟨mid, hstep, hrun⟩ := Option.bind_eq_some_iff.1 hrun
    obtain ⟨content', hmid⟩ := h.step hcalls hpermits.1 hstep
    exact ih hmid (hpermits.2 mid hstep) hrun

end Sys

end ArborDb
