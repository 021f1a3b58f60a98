import ArborDb.Txn.Bracket
import ArborDb.Txn.Permissions

/-!
# Assertions that every call maintains

A call writes an a-node only after it has read it, or under a fresh key. An assertion that survives
every write of an a-node in a set `W` is therefore maintained by every call, provided that a read
shows its a-node to be in `W` (`Guard`). The walk through the programs is made once, here.
-/

namespace ArborDb

open Prog (Maintains)

/-- The state after the buffer is taken out and written to the table. -/
def TxState.flushed (e : Env) (s : TxState) (buffering : Bool) : TxState :=
  ((flushBuffered s.buffer.dirs.entries s.buffer.files.entries).run e
    { s with buffer := { s.buffer.clear with buffering := buffering } }).2

theorem TxState.flushed_drawn (e : Env) (s : TxState) (buffering : Bool) :
    (s.flushed e buffering).drawn = s.drawn := flushBuffered_drawn _ _ e _

/-- What a buffer holds, in the order in which a flush writes it. -/
def WriteBuffer.pending (b : WriteBuffer) : List (AKey × Entry) :=
  b.dirs.entries.map (fun d => (d.1, .dir d.2)) ++ b.files.entries.map fun f => (f.1, .file f.2)

/-- The state after some entries are written to the table. -/
def TxState.putAll (e : Env) (s : TxState) (entries : List (AKey × Entry)) : TxState :=
  entries.foldl (fun s x => s.putEntry e x.1 x.2) s

theorem forEach_putEntry {α : Type} (f : α → AKey × Entry) (e : Env) (l : List α) (s : TxState) :
    (Prog.forEach (fun a => putEntry (f a).1 (f a).2) l).run e s = (.ok (), s.putAll e (l.map f)) := by
  induction l generalizing s with
  | nil => rfl
  | cons a l ih => exact ih (s.putEntry e (f a).1 (f a).2)

theorem TxState.flushed_eq (e : Env) (s : TxState) (buffering : Bool) :
    s.flushed e buffering =
      TxState.putAll e { s with buffer := { s.buffer.clear with buffering := buffering } }
        s.buffer.pending := by
  have hdirs := forEach_putEntry (fun d : AKey × SortedMap Str AKey => (d.1, Entry.dir d.2)) e
    s.buffer.dirs.entries
  have hfiles := forEach_putEntry (fun f : AKey × Bytes => (f.1, Entry.file f.2)) e
    s.buffer.files.entries
  unfold flushed flushBuffered WriteBuffer.pending putAll
  rw [Prog.run_bind, hdirs, Prog.next_ok, hfiles, List.foldl_append]
  rfl

/-- An a-node that the buffer holds. -/
def WriteBuffer.Holds (b : WriteBuffer) (k : AKey) : Prop :=
  b.dirs.get k ≠ none ∨ b.files.get k ≠ none

theorem WriteBuffer.mem_pending {b : WriteBuffer} {k : AKey} :
    k ∈ b.pending.map Prod.fst ↔ b.Holds k := by
  have hmem : ∀ {V : Type} {m : SortedMap AKey V}, k ∈ m.entries.map Prod.fst ↔ m.get k ≠ none := by
    intro V m
    constructor
    · intro h hnone
      obtain ⟨x, hx, rfl⟩ := List.mem_map.1 h
      rw [SortedMap.get_iff_mem.2 hx] at hnone
      cases hnone
    · intro h
      obtain ⟨a, ha⟩ := Option.ne_none_iff_exists'.1 h
      exact List.mem_map.2 ⟨_, SortedMap.get_iff_mem.1 ha, rfl⟩
  unfold pending Holds
  rw [List.map_append, List.mem_append, List.map_map, List.map_map]
  exact or_congr hmem hmem

/-- The state after an a-node's list is replaced and its tags are computed again. -/
def TxState.relist (e : Env) (s : TxState) (akey : AKey) (acl : Acl) : TxState :=
  let s := { s with inodes := s.inodes.setAcl akey acl }
  { s with inodes := e.reseal s akey }

/-- The assertion `I` survives every write of an a-node in `W`, and a read shows that its a-node is
in `W`; so is every key drawn before the `n`-th. -/
structure Guard (e : Env) (n : Nat) (W : AKey → Prop) (I : TxState → Prop) : Prop where
  read : ∀ {s k o}, I s → readVerified e s k = .ok o → W k
  dirty : ∀ {s k m}, I s → s.buffer.dirs.get k = some m → W k
  fresh : ∀ {s}, I s → s.drawn < n → W (e.gen s.drawn)
  draw : ∀ {s}, I s → I { s with drawn := s.drawn + 1 }
  unindexed : Unindexed I
  bump : ∀ {s}, I s → I { s with buffer := s.buffer.bumpStructure }
  putEntry : ∀ {s k entry}, W k → I s → I (s.putEntry e k entry)
  removeEntry : ∀ {s k}, W k → I s → I (s.removeEntry e k)
  filePut : ∀ {s k blob}, W k → I s → I { s with buffer := s.buffer.filePut k blob }
  dirPut : ∀ {s k m}, W k → I s → I { s with buffer := s.buffer.dirPut k m }
  newDir : ∀ {s k m}, W k → I s →
    I { s with inodes := e.stampNewDirAcl s.inodes k, buffer := s.buffer.dirPut k m }
  relist : ∀ {s k acl}, W k → I s → I (s.relist e k acl)
  flushed : ∀ {s} buffering, I s → I (s.flushed e buffering)

namespace Guard

variable {e : Env} {n : Nat} {W : AKey → Prop} {I : TxState → Prop} (G : Guard e n W I)
include G

/-! ## Reads -/

theorem dirGet {s : TxState} {k : AKey} {m : SortedMap Str AKey} (hs : I s)
    (h : s.buffer.dirGet k = some m) : W k := G.dirty hs (by rwa [WriteBuffer.dirGet_eq] at h)

theorem kind {s : TxState} {k : AKey} {o : Option EntryKind} (hs : I s)
    (h : ArborDb.kind e s k = .ok o) : W k := by
  unfold ArborDb.kind at h
  split at h
  · exact G.dirGet hs ‹_›
  · obtain ⟨x, hx, _⟩ := Except.bind_eq_ok.1 h
    exact G.read hs hx

theorem child {s : TxState} {k : AKey} {name : Str} {o : Option AKey} (hs : I s)
    (h : ArborDb.child e s k name = .ok o) : W k := by
  unfold ArborDb.child at h
  split at h
  · exact G.dirGet hs ‹_›
  · obtain ⟨x, hx, _⟩ := Except.bind_eq_ok.1 h
    exact G.read hs hx

theorem dirChildren {s : TxState} {k : AKey} {m : SortedMap Str AKey} (hs : I s)
    (h : ArborDb.dirChildren e s k = .ok m) : W k := by
  unfold ArborDb.dirChildren at h
  split at h
  · exact G.dirGet hs ‹_›
  · obtain ⟨x, hx, _⟩ := Except.bind_eq_ok.1 h
    exact G.read hs hx

theorem cascadeChildren {s : TxState} {k : AKey} {o : Option (List AKey)} (hs : I s)
    (h : ArborDb.cascadeChildren e s k = .ok o) : W k := by
  unfold ArborDb.cascadeChildren at h
  split at h
  · exact G.dirGet hs ‹_›
  · obtain ⟨x, hx, _⟩ := Except.bind_eq_ok.1 h
    exact G.read hs hx

theorem root {s : TxState} (hs : I s) (h : hasEntry s .root = false) : W .root := by
  unfold hasEntry at h
  simp only [Bool.or_eq_false_iff] at h
  cases hf : s.buffer.fileGet .root with
  | some blob =>
    refine G.read (o := some (.file blob)) hs ?_
    unfold readVerified
    rw [hf]
  | none =>
    refine G.read (o := none) hs ?_
    have hnone : s.data.get .root = none := by
      simpa [SortedMap.contains] using h.2
    unfold readVerified readTable
    rw [hf, hnone]

/-! ## Writes -/

theorem generate {α : Type} {f : AKey → TxM α} (h : ∀ k, W k → Maintains e n I (f k)) :
    Maintains e n I (ArborDb.generate >>= f) := by
  intro s hs hn
  have hlt : s.drawn < n := (Prog.drawn_le (f (e.gen s.drawn)) e _).trans hn
  exact h _ (G.fresh hs hlt) _ (G.draw hs) hn

theorem putDir {k : AKey} {m : SortedMap Str AKey} (hk : W k) : Maintains e n I (ArborDb.putDir k m) := by
  refine Maintains.modify fun s hs => ?_
  split
  · exact G.newDir hk hs
  · exact G.putEntry hk hs

theorem put {k : AKey} {entry : Entry} (hk : W k) : Maintains e n I (ArborDb.putEntry k entry) :=
  Maintains.modify fun _ hs => G.putEntry hk hs

theorem remove {k : AKey} (hk : W k) : Maintains e n I (ArborDb.removeEntry k) :=
  Maintains.modify fun _ hs => G.removeEntry hk hs

theorem putFileEdit {k : AKey} {blob : Bytes} (hk : W k) :
    Maintains e n I (ArborDb.putFileEdit k blob) := by
  refine Maintains.modify fun s hs => ?_
  split
  · exact G.filePut hk hs
  · exact G.putEntry hk hs

theorem editDir (k : AKey) (edit : SortedMap Str AKey → SortedMap Str AKey) :
    Maintains e n I (ArborDb.editDir k edit) := by
  refine Maintains.bind (Maintains.modify fun _ hs => G.bump hs) fun _ => ?_
  refine Maintains.inspect fun s m hs hm => ?_
  have hk := G.dirChildren hs hm
  refine Maintains.guard fun buffering => ?_
  split
  · exact Maintains.modify fun _ hs => G.dirPut hk hs
  · exact G.putDir hk

theorem flush : Maintains e n I ArborDb.flush := fun s hs _ => G.flushed s.buffer.buffering hs

theorem flushAndDisable : Maintains e n I ArborDb.flushAndDisable := fun _ hs _ => G.flushed false hs

/-! ## Programs -/

theorem ensureDir (path : APath) : Maintains e n I (ArborDb.ensureDir path) := by
  have hroot : Maintains e n I ensureRoot := by
    refine Maintains.inspect fun s present hs hp => ?_
    split
    · exact Maintains.pure _
    · refine G.putDir (G.root hs ?_)
      simp_all
  have hfrom : ∀ names k, Maintains e n I (ensureDirFrom k names) := by
    intro names
    induction names with
    | nil => exact fun k => Maintains.pure k
    | cons name names ih =>
      intro k
      refine Maintains.guard fun _ => Maintains.guard fun found => ?_
      cases found with
      | some c =>
        refine Maintains.guard fun kind => ?_
        split
        · exact Maintains.fail _
        · exact ih c
      | none =>
        refine Maintains.guard fun _ => G.generate fun c hc => ?_
        exact (G.putDir hc).bind fun _ => (G.editDir k _).bind fun _ => ih c
  exact hroot.bind fun _ => hfrom path.names .root

theorem cascadeDelete (fuel : Nat) (k : AKey) : Maintains e n I (ArborDb.cascadeDelete fuel k) := by
  induction fuel generalizing k with
  | zero => exact Maintains.fail _
  | succ fuel ih =>
    refine Maintains.inspect fun s children hs hc => ?_
    have hk := G.cascadeChildren hs hc
    cases children with
    | none => exact Maintains.pure _
    | some children => exact (Maintains.forEach fun c _ => ih c).bind fun _ => G.remove hk

theorem deepCopy (fuel : Nat) (k : AKey) : Maintains e n I (ArborDb.deepCopy fuel k) := by
  induction fuel generalizing k with
  | zero => exact Maintains.fail _
  | succ fuel ih =>
    refine Maintains.guard fun _ => G.generate fun fresh hfresh => Maintains.guard fun kind => ?_
    match kind with
    | none => exact Maintains.fail _
    | some .file =>
      refine Maintains.guard fun entry => ?_
      cases entry with
      | none => exact Maintains.fail _
      | some entry => exact (G.put hfresh).bind fun _ => Maintains.pure _
    | some .dir =>
      refine Maintains.guard fun children => ?_
      have hcopy : ∀ l copied, Maintains e n I (copyChildren (ArborDb.deepCopy fuel) l copied) := by
        intro l
        induction l with
        | nil => exact fun copied => Maintains.pure copied
        | cons x l ihl => exact fun copied => (ih x.2).bind fun _ => ihl _
      exact (hcopy _ _).bind fun _ => (G.putDir hfresh).bind fun _ => Maintains.pure _

omit G in
theorem bounded {α : Type} {f : Nat → TxM α} (h : ∀ fuel, Maintains e n I (f fuel)) :
    Maintains e n I (ArborDb.bounded f) := Maintains.guard fun size => h (size + 1)

theorem storeBlobInto (path : APath) (blob : Bytes) :
    Maintains e n I (ArborDb.storeBlobInto path blob) := by
  have hnew : ∀ parent name, Maintains e n I (do
      let fresh ← ArborDb.generate
      linkChild parent name fresh
      ArborDb.putEntry fresh (.file blob)) := fun parent name =>
    G.generate fun fresh hfresh => (G.editDir parent _).bind fun _ => G.put hfresh
  refine Maintains.guard fun split => (G.ensureDir split.1).bind fun parent => ?_
  refine Maintains.guard fun _ => Maintains.guard fun found => ?_
  cases found with
  | none => exact Maintains.guard fun _ => hnew parent split.2
  | some node =>
    refine Maintains.inspect fun s kind hs hkind => ?_
    split
    · exact Maintains.guard fun _ => G.put (G.kind hs hkind)
    · refine Maintains.guard fun _ => Maintains.guard fun _ => ?_
      exact (bounded fun fuel => G.cascadeDelete fuel node).bind fun _ => hnew parent split.2

theorem rmInto (path : APath) : Maintains e n I (ArborDb.rmInto path) := by
  refine Maintains.guard fun split => Maintains.guard fun parent => ?_
  cases parent with
  | none => exact Maintains.pure _
  | some parent =>
    refine Maintains.guard fun _ => Maintains.guard fun found => ?_
    cases found with
    | none => exact Maintains.pure _
    | some akey =>
      refine Maintains.guard fun _ => (bounded fun fuel => G.cascadeDelete fuel akey).bind fun _ => ?_
      exact (G.editDir parent _).bind fun _ => Maintains.pure _

theorem reapOwned (uid : Id32) : Maintains e n I (ArborDb.reapOwned uid) := by
  refine Maintains.guard fun victims => Maintains.forEach fun victim _ => Maintains.guard fun found => ?_
  cases found with
  | none => exact Maintains.pure _
  | some c =>
    exact (bounded fun fuel => G.cascadeDelete fuel c).bind fun _ => G.editDir victim.1 _

theorem clearSlot (parent : AKey) (name : Str) : Maintains e n I (ArborDb.clearSlot parent name) := by
  refine Maintains.guard fun found => ?_
  cases found with
  | none => exact Maintains.pure _
  | some existing => exact Maintains.guard fun _ => bounded fun fuel => G.cascadeDelete fuel existing

theorem mvInto (src dst : APath) : Maintains e n I (ArborDb.mvInto src dst) := by
  refine Maintains.guard fun _ => Maintains.guard fun split => Maintains.guard fun parent => ?_
  cases parent with
  | none => exact Maintains.fail _
  | some parent =>
    refine Maintains.guard fun _ => Maintains.guard fun found => ?_
    cases found with
    | none => exact Maintains.fail _
    | some akey =>
      refine Maintains.guard fun _ => (G.ensureDir split.1).bind fun dstParent => ?_
      refine Maintains.guard fun _ => (G.clearSlot dstParent _).bind fun _ => ?_
      exact (G.editDir dstParent _).bind fun _ => G.editDir parent _

theorem cpInto (src dst : APath) : Maintains e n I (ArborDb.cpInto src dst) := by
  refine Maintains.guard fun split => Maintains.guard fun found => ?_
  cases found with
  | none => exact Maintains.fail _
  | some akey =>
    refine (G.ensureDir split.1).bind fun dstParent => Maintains.guard fun _ => ?_
    refine (G.clearSlot dstParent _).bind fun _ => ?_
    exact (bounded fun fuel => G.deepCopy fuel akey).bind fun _ => G.editDir dstParent _

theorem setList (path : APath) (check : AKey × Acl → Env → TxState → AdbResult Unit)
    (apply : Acl → Acl) : Maintains e n I (do
      let target ← inspect (aclTarget · · path)
      inspect (check target)
      writeAcl target.1 (apply target.2)
      resealIntegrity target.1) := by
  refine Maintains.inspect fun s target hs htarget => Maintains.guard fun _ => ?_
  have hk : W target.1 := by
    unfold aclTarget at htarget
    obtain ⟨found, _, htarget⟩ := Except.bind_eq_ok.1 htarget
    cases found with
    | none => cases htarget
    | some akey =>
      simp only at htarget
      split at htarget
      · cases htarget
      · obtain ⟨o, ho, htarget⟩ := Except.bind_eq_ok.1 htarget
        split at htarget
        · cases htarget
        · cases htarget
          exact G.read hs ho
  exact fun s hs _ => G.relist hk hs

section

variable [Externals]

theorem putScalarInto (path : APath) (hint : Option (AKey × UInt64)) (vpath : VPath)
    (scalar : Scalar) : Maintains e n I (ArborDb.putScalarInto path hint vpath scalar) := by
  refine Maintains.inspect fun s target hs htarget => ?_
  cases target with
  | none => exact G.storeBlobInto path _
  | some target =>
    obtain ⟨akey, entry⟩ := target
    have hk : W akey := G.read hs (resolveTarget_cases htarget).1
    refine Maintains.guard fun _ => Maintains.guard fun patched => ?_
    cases patched with
    | some blob => exact G.putFileEdit hk
    | none => exact Maintains.guard fun _ => G.putFileEdit hk

theorem reindexAround {indexes : List IndexEntry} {scopes : List APath} {α : Type} {apply : TxM α}
    (h : Maintains e n I apply) : Maintains e n I (ArborDb.reindexAround indexes scopes apply) := by
  unfold ArborDb.reindexAround
  split
  · exact h
  · refine G.flushAndDisable.bind fun _ => ?_
    refine (Maintains.forEach fun scope _ => Prog.Triple.maintains <| deleteEntries_keeps G.unindexed).bind fun _ => ?_
    refine h.bind fun _ => ?_
    refine (Maintains.forEach fun scope _ => Prog.Triple.maintains <| insertEntries_keeps G.unindexed).bind fun _ => ?_
    exact Maintains.pure _

theorem call (indexes : List IndexEntry) (c : Call) : Maintains e n I (c.prog indexes) := by
  cases c with
  | store path blob =>
    change Maintains e n I (storeBlobAt indexes path blob)
    unfold storeBlobAt
    split
    · exact Maintains.fail _
    · exact G.reindexAround (G.storeBlobInto path blob)
  | storeValue path value =>
    change Maintains e n I (storeValueAt indexes path value)
    unfold storeValueAt
    split
    · exact Maintains.fail _
    · exact G.reindexAround (G.storeBlobInto path _)
  | putScalar path hint vpath scalar =>
    exact G.reindexAround (G.putScalarInto path hint vpath scalar)
  | mkdir path => exact (G.ensureDir path).bind fun _ => Maintains.pure _
  | rm path =>
    refine Maintains.bind ?_ fun _ => Maintains.pure _
    unfold rm
    split
    · exact Maintains.fail _
    · exact G.reindexAround (G.rmInto path)
  | mv src dst =>
    change Maintains e n I (mv indexes src dst)
    unfold mv
    split_ifs
    · exact Maintains.fail _
    · exact Maintains.fail _
    · exact Maintains.fail _
    · exact G.reindexAround (G.mvInto src dst)
  | cp src dst =>
    change Maintains e n I (cp indexes src dst)
    unfold cp
    split_ifs
    · exact Maintains.fail _
    · exact Maintains.fail _
    · exact G.reindexAround (G.cpInto src dst)

/-- **Every call maintains the assertion.** -/
theorem op (names : Names) (indexes : List IndexEntry) (o : Op) :
    Maintains e n I (o.prog names indexes) := by
  have hset : ∀ path apply, Maintains e n I (setAclInto path apply) := fun path apply =>
    G.setList path (fun target e _ => authorize e.principal target.1 (some target.2) .modify) apply
  cases o with
  | call c => exact G.call indexes c
  | chown path owner =>
    refine Maintains.guard fun uid => ?_
    exact G.setList path (fun target e _ => authorizeChown e.principal target.2) fun acl =>
      acl.setOwnerUid uid
  | setAcl path cls rights =>
    cases cls with
    | user => exact hset path fun acl => acl.setOwnerRights rights
    | other => exact hset path fun acl => acl.setOtherRights rights
    | group name =>
      refine Maintains.guard fun gid => ?_
      exact hset path fun acl => acl.setGroupRights gid rights
  | addGroup path group => exact Maintains.guard fun gid => hset path fun acl => acl.addGroup gid
  | delGroup path group => exact Maintains.guard fun gid => hset path fun acl => acl.removeGroup gid

end

end Guard

end ArborDb
